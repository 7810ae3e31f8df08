import WorkflowGraph.Proofs.Graph.Journey
import WorkflowGraph.Proofs.Graph.Termination

/-!
# Loop limits over whole runs

A node with a limit is entered afresh as often as its limit says and no more: the entry after these
is refused, and the run fails. This is counted over a whole run with all its suspensions, since the
counters are part of the state that is saved, and start at zero again where a thread that has
completed is run again (`loop_limits_are_exact`).

Each step counts the visit of its node, if it is a fresh one and the node has a limit, and refuses
it by that count (`GraphFrame.Passes.counts`). Counts add up along a journal (`Counts.append`), so
that a walk counts what its steps count, and a run what its walks count.
-/

set_option autoImplicit false

namespace WorkflowGraph

open Activity

/-! ## Entries in a journal -/

/-- Whether a node has been refused. -/
def Fate.isRefused : Fate → Bool
  | .refused => true
  | _ => false

/-- Whether an entry is one of a node that is not entered again after a suspension. -/
def Station.isFresh (id : String) (e : Station) : Bool := e.resume.isNone && e.node == id

/-- The number of fresh entries of a node. -/
def timesEntered (id : String) (journal : List Station) : Nat :=
  journal.countP fun e => e.isFresh id

/-- The number of fresh entries of a node that have not been refused. -/
def timesAdmitted (id : String) (journal : List Station) : Nat :=
  journal.countP fun e => e.isFresh id && !e.fate.isRefused

theorem timesEntered_append (id : String) (journal more : List Station) :
    timesEntered id (journal ++ more) = timesEntered id journal + timesEntered id more :=
  List.countP_append

/-! ## Counting -/

/-- Whether an error is that of a node whose limit is used up. -/
def RunError.IsExceeded : RunError → Prop
  | .loopLimitExceeded _ _ => True
  | _ => False

open GraphFrame (visitsOf)

/-- How the counters of a state change over a journal, and what is refused by them. The counters say
how often each node with a limit has been entered afresh. An entry is refused if and only if it is
fresh and the limit is used up; it is then the last one, and the run fails with it, and a run that
fails in this way has been refused. -/
structure Counts (table : TransitionTable) (s : State) (journal : List Station)
    (error? : Option RunError) (t : State) : Prop where
  visits : error? = none → ∀ id limit, table.limit? id = some limit →
    visitsOf t id = visitsOf s id + timesEntered id journal
  refused : ∀ front e back, journal = front ++ e :: back →
    (e.fate.isRefused = true ↔ e.resume = none ∧ ∃ limit, table.limit? e.node = some limit ∧
      limit ≤ visitsOf s e.node + timesEntered e.node front)
  last : ∀ front e back, journal = front ++ e :: back → e.fate.isRefused = true →
    back = [] ∧ ∃ limit, table.limit? e.node = some limit ∧
      error? = some (.loopLimitExceeded e.node limit)
  exceeded : ∀ id limit, error? = some (.loopLimitExceeded id limit) →
    table.limit? id = some limit ∧
      ∃ front e, journal = front ++ [e] ∧ e.node = id ∧ e.fate.isRefused = true

namespace Counts

variable {table : TransitionTable} {s t u v : State} {journal more : List Station}
  {error? : Option RunError}

/-- Where no node is entered, nothing is counted. -/
theorem nil (hvisits : error? = none → ∀ id, visitsOf t id = visitsOf s id)
    (herror : ∀ e, error? = some e → ¬ e.IsExceeded) : Counts table s [] error? t where
  visits hnone id _ _ := hvisits hnone id
  refused front e back h := by simp at h
  last front e back h := by simp at h
  exceeded id limit h := (herror _ h trivial).elim

theorem single {e : Station} (hvisits : error? = none → ∀ id limit, table.limit? id = some limit →
      visitsOf t id = visitsOf s id + timesEntered id [e])
    (hrefused : e.fate.isRefused = true ↔ e.resume = none ∧ ∃ limit,
      table.limit? e.node = some limit ∧ limit ≤ visitsOf s e.node)
    (hlast : e.fate.isRefused = true → ∃ limit, table.limit? e.node = some limit ∧
      error? = some (.loopLimitExceeded e.node limit))
    (hexceeded : e.fate.isRefused = false → ∀ cause, error? = some cause → ¬ cause.IsExceeded) :
    Counts table s [e] error? t where
  visits := hvisits
  refused front other back h := by
    obtain ⟨rfl, hback⟩ | ⟨_, _, hback⟩ := List.cons_eq_append_iff.1 h
    · cases hback
      exact hrefused
    · simp at hback
  last front other back h := by
    obtain ⟨rfl, hback⟩ | ⟨_, _, hback⟩ := List.cons_eq_append_iff.1 h
    · cases hback
      exact fun hfate => ⟨rfl, hlast hfate⟩
    · simp at hback
  exceeded id limit h := by
    cases hfate : e.fate.isRefused with
    | false => exact (hexceeded hfate _ h trivial).elim
    | true =>
      obtain ⟨bound, hbound, herror⟩ := hlast hfate
      rw [h] at herror
      cases herror
      exact ⟨hbound, [], e, rfl, rfl, hfate⟩

/-- Counts add up. What comes first must not have failed, and what comes then starts with the
counters that it has left. -/
theorem append (h : Counts table s journal none t) (h' : Counts table u more error? v)
    (hsame : ∀ id, visitsOf u id = visitsOf t id) : Counts table s (journal ++ more) error? v where
  visits hnone id limit hlimit := by
    rw [h'.visits hnone id limit hlimit, hsame, h.visits rfl id limit hlimit, timesEntered_append,
      Nat.add_assoc]
  refused front e back heq := by
    rcases exists_of_append_eq heq with ⟨rest, hjournal, -⟩ | ⟨rest, rfl, hmore⟩
    · exact h.refused front e rest hjournal
    · rw [h'.refused rest e back hmore]
      refine and_congr_right fun _ => exists_congr fun limit => and_congr_right fun hlimit => ?_
      rw [hsame, h.visits rfl _ _ hlimit, timesEntered_append, Nat.add_assoc]
  last front e back heq hfate := by
    rcases exists_of_append_eq heq with ⟨rest, hjournal, -⟩ | ⟨rest, rfl, hmore⟩
    · obtain ⟨_, _, _, herror⟩ := h.last front e rest hjournal hfate
      cases herror
    · exact h'.last rest e back hmore hfate
  exceeded id limit herror := by
    obtain ⟨hlimit, front, e, rfl, hnode, hfate⟩ := h'.exceeded id limit herror
    exact ⟨hlimit, journal ++ front, e, (List.append_assoc _ _ _).symm, hnode, hfate⟩

/-- A journal that has counted from zero holds no node with a limit more often than the limit
says, other than where it is refused. By induction on how far it has been read. -/
theorem timesAdmitted_le (h : Counts table s journal error? t) (hzero : ∀ id, visitsOf s id = 0)
    {id : String} {limit : Nat} (hlimit : table.limit? id = some limit) {front back : List Station}
    (heq : journal = front ++ back) : timesAdmitted id front ≤ limit := by
  induction front using List.reverseRecOn generalizing back with
  | nil => exact Nat.zero_le limit
  | append_singleton front e ih =>
    rw [List.append_assoc, List.singleton_append] at heq
    have hfront := ih heq
    unfold timesAdmitted at hfront ⊢
    rw [List.countP_append, List.countP_singleton]
    split
    · next hadmitted =>
      rw [Bool.and_eq_true, Station.isFresh, Bool.and_eq_true, beq_iff_eq] at hadmitted
      obtain ⟨⟨hfresh, rfl⟩, hfate⟩ := hadmitted
      have hbelow : ¬ limit ≤ timesEntered e.node front := by
        intro hle
        have hrefused := (h.refused front e back heq).2
          ⟨Option.isNone_iff_eq_none.1 hfresh, limit, hlimit, by rwa [hzero, Nat.zero_add]⟩
        rw [hrefused] at hfate
        cases hfate
      have hle : (front.countP fun e' => e'.isFresh e.node && !e'.fate.isRefused) ≤
          timesEntered e.node front :=
        List.countP_mono_left fun e' _ h => (Bool.and_eq_true _ _ ▸ h).1
      omega
    · exact hfront

/-- What stands before another entry has not been refused. -/
theorem timesEntered_eq (h : Counts table s journal error? t) (id : String) {front back : List Station}
    {e : Station} (heq : journal = front ++ e :: back) :
    timesEntered id front = timesAdmitted id front := by
  refine List.countP_congr fun e' he' => ?_
  obtain ⟨before, after, rfl⟩ := List.append_of_mem he'
  cases hfate : e'.fate.isRefused with
  | false => simp
  | true =>
    rw [List.append_assoc, List.cons_append] at heq
    obtain ⟨hback, _⟩ := h.last before e' _ heq hfate
    simp at hback

/-- What is refused in a journal that has counted from zero has been entered exactly as often before
as the limit says. -/
theorem timesEntered_of_refused (h : Counts table s journal error? t)
    (hzero : ∀ id, visitsOf s id = 0) {front back : List Station} {e : Station}
    (heq : journal = front ++ e :: back) (hfate : e.fate.isRefused = true) :
    back = [] ∧ ∃ limit, table.limit? e.node = some limit ∧ timesEntered e.node front = limit ∧
      error? = some (.loopLimitExceeded e.node limit) := by
  obtain ⟨hback, limit, hlimit, herror⟩ := h.last front e back heq hfate
  refine ⟨hback, limit, hlimit, Nat.le_antisymm ?_ ?_, herror⟩
  · rw [h.timesEntered_eq e.node heq]
    exact h.timesAdmitted_le hzero hlimit heq
  · obtain ⟨_, bound, hbound, hle⟩ := (h.refused front e back heq).1 hfate
    rw [hlimit] at hbound
    cases hbound
    rwa [hzero, Nat.zero_add] at hle

/-- Where a journal that has counted from zero has failed for a limit, it has entered the node once
more than that. -/
theorem timesEntered_of_exceeded (h : Counts table s journal error? t)
    (hzero : ∀ id, visitsOf s id = 0) {id : String} {limit : Nat}
    (herror : error? = some (.loopLimitExceeded id limit)) :
    table.limit? id = some limit ∧ timesEntered id journal = limit + 1 := by
  obtain ⟨hlimit, front, e, heq, rfl, hfate⟩ := h.exceeded id limit herror
  obtain ⟨_, bound, hbound, htimes, _⟩ := h.timesEntered_of_refused hzero heq hfate
  rw [hlimit] at hbound
  cases hbound
  have hfresh := ((h.refused front e [] heq).1 hfate).1
  rw [heq, timesEntered_append, htimes]
  simp [timesEntered, Station.isFresh, hfresh, hlimit]

end Counts

/-! ## What walks count -/

namespace GraphFrame

variable {g : GraphFrame} {s t : State} {node : String} {resume : Option Value}

/-- The state after a visit has been counted. -/
def visited (s : State) (node : String) : State :=
  { s with loopCounters := s.loopCounters.put node (visitsOf s node + 1) }

theorem visitsOf_visited (s : State) (node id : String) :
    visitsOf (visited s node) id = visitsOf s id + if node = id then 1 else 0 := by
  unfold visitsOf visited
  dsimp only
  rw [Dict.get?_put]
  by_cases h : node = id
  · subst h
    rw [if_pos rfl, if_pos rfl]
    rfl
  · rw [if_neg h, if_neg h]
    rfl

/-- A fresh visit of a node with a limit is counted before it is known whether it is allowed. -/
theorem visit_of_limit (s : State) {limit : Nat} (hlimit : g.table.limit? node = some limit) :
    g.visit s node none = (if limit ≤ visitsOf s node then .error (.loopLimitExceeded node limit)
      else .ok (), visited s node) := by
  unfold visit
  simp only [hlimit]
  by_cases h : limit ≤ visitsOf s node
  · rw [if_pos h]
    exact if_pos (Nat.lt_succ_of_le h)
  · rw [if_neg h]
    exact if_neg fun hlt => h (Nat.le_of_lt_succ hlt)

theorem visit_of_unlimited (s : State) (resume : Option Value) (hlimit : g.table.limit? node = none) :
    g.visit s node resume = (.ok (), s) := by
  unfold visit
  rw [hlimit]
  cases resume <;> rfl

/-- A visit that is refused is a fresh one of a node whose limit is used up. -/
theorem exceeded_of_visit {limit : Nat}
    (h : g.visit s node resume = (.error (.loopLimitExceeded node limit), t)) :
    resume = none ∧ g.table.limit? node = some limit ∧ limit ≤ visitsOf s node := by
  cases resume with
  | some value => cases h
  | none =>
    cases hlimit : g.table.limit? node with
    | none =>
      rw [visit_of_unlimited s none hlimit] at h
      cases h
    | some bound =>
      rw [visit_of_limit s hlimit] at h
      split at h
      · next hle =>
        cases h
        exact ⟨rfl, rfl, hle⟩
      · cases h

/-- A visit that is allowed counts, if it is a fresh one of a node with a limit that is not used
up. -/
theorem counts_of_visit (h : g.visit s node resume = (.ok (), t)) :
    (¬ (resume = none ∧ ∃ limit, g.table.limit? node = some limit ∧ limit ≤ visitsOf s node)) ∧
      ∀ id limit, g.table.limit? id = some limit → ∀ fate,
        visitsOf t id = visitsOf s id + timesEntered id [⟨node, resume, t, fate⟩] := by
  cases resume with
  | some value =>
    cases h
    exact ⟨by simp, fun _ _ _ _ => rfl⟩
  | none =>
    cases hlimit : g.table.limit? node with
    | none =>
      rw [visit_of_unlimited s none hlimit] at h
      cases h
      refine ⟨by simp, fun id limit hid fate => ?_⟩
      have hne : node ≠ id := by
        rintro rfl
        rw [hlimit] at hid
        cases hid
      simp [timesEntered, Station.isFresh, hne]
    | some bound =>
      rw [visit_of_limit s hlimit] at h
      split at h
      · cases h
      · next hle =>
        cases h
        refine ⟨?_, fun id _ _ fate => ?_⟩
        · rintro ⟨_, limit, hlimit', hle'⟩
          cases hlimit'
          exact hle hle'
        · rw [visitsOf_visited]
          simp [timesEntered, Station.isFresh, List.countP_singleton]

theorem not_isExceeded_of_next {table : TransitionTable} {fields : Fields}
    {e : RunError} (h : table.next node fields = .error e) : ¬ e.IsExceeded := by
  unfold TransitionTable.next at h
  split at h
  · cases h
    exact id
  · next t _ =>
    cases hchoose : t.choose node fields with
    | ok x =>
      rw [hchoose] at h
      cases h
    | error e' =>
      rw [hchoose] at h
      cases h
      rcases Transition.choose_eq_error hchoose with
        ⟨_, rfl, rfl, _⟩ | ⟨_, _, _, rfl, rfl⟩
      · exact id
      · exact id

theorem Settled.counts {outcome : NodeOutcome} {onward : Onward}
    (h : g.Settled node s outcome onward t) :
    t.loopCounters = s.loopCounters ∧ ∀ e, onward.error? = some e → ¬ e.IsExceeded := by
  cases h with
  | suspended => exact ⟨rfl, by rintro _ ⟨⟩⟩
  | unsavedSuspension => exact ⟨rfl, by rintro _ ⟨⟩; exact id⟩
  | stuck _ hnext =>
    refine ⟨rfl, ?_⟩
    rintro _ ⟨⟩
    exact not_isExceeded_of_next hnext
  | went => exact ⟨rfl, by rintro _ ⟨⟩⟩
  | arrived => exact ⟨rfl, by rintro _ ⟨⟩⟩
  | unsaved => exact ⟨rfl, by rintro _ ⟨⟩; exact id⟩

/-- Whether the executions of nodes fail with errors of nodes only, which none of them takes from
its limit. -/
def FailsAsNode (r : NodeRun) : Prop := ∀ e, r.result = .error e → ¬ e.IsExceeded

variable {Q : String → State → Option Value → NodeRun → Prop}

/-- **A step counts the visit of its node**, and refuses it by what has been counted before. -/
theorem Passes.counts (hQ : ∀ node s resume r, Q node s resume r → FailsAsNode r)
    {noted : List Station} {onward : Onward} (h : g.Passes Q s node resume noted onward t) :
    Counts g.table s noted onward.error? t := by
  cases h with
  | unknown =>
    refine Counts.nil (by rintro ⟨⟩) ?_
    rintro _ ⟨⟩
    exact id
  | @refused limit t hvisit =>
    obtain ⟨rfl, hlimit, hle⟩ := exceeded_of_visit hvisit
    exact .single (by rintro ⟨⟩) (iff_of_true rfl ⟨rfl, limit, hlimit, hle⟩)
      (fun _ => ⟨limit, hlimit, rfl⟩) (by rintro ⟨⟩)
  | cut after hvisit =>
    obtain ⟨hbelow, _⟩ := counts_of_visit hvisit
    refine .single (by rintro ⟨⟩) (iff_of_false (by rintro ⟨⟩) hbelow) (by rintro ⟨⟩) ?_
    rintro _ _ ⟨⟩
    exact id
  | failed hvisit hr he =>
    obtain ⟨hbelow, _⟩ := counts_of_visit hvisit
    refine .single (by rintro ⟨⟩) (iff_of_false (by rintro ⟨⟩) hbelow) (by rintro ⟨⟩) ?_
    rintro _ _ ⟨⟩
    exact hQ _ _ _ _ hr _ he
  | settled hvisit hr houtcome hsettled =>
    obtain ⟨hbelow, hvisits⟩ := counts_of_visit hvisit
    obtain ⟨hcounters, herror⟩ := hsettled.counts
    refine .single (fun _ id limit hlimit => ?_) (iff_of_false (by rintro ⟨⟩) hbelow)
      (by rintro ⟨⟩) fun _ => herror
    rw [← hvisits id limit hlimit]
    unfold visitsOf
    rw [hcounters]
    rfl

/-- By induction on the steps. -/
theorem Walked.counts (hQ : ∀ node s resume r, Q node s resume r → FailsAsNode r)
    {journal : List Station} {ending : WalkEnd} (h : g.Walked Q s node resume journal ending t) :
    Counts g.table s journal ending.error? t := by
  induction h with
  | spent =>
    refine Counts.nil (by rintro ⟨⟩) ?_
    rintro _ ⟨⟩
    exact id
  | stop h => exact h.counts hQ
  | go h _ ih => exact (h.counts hQ).append ih fun _ => rfl

/-- By induction on the walks. Where a run is suspended, the counters go on from what they have
come to; entering the node again counts as nothing. -/
theorem Travelled.counts (hQ : ∀ node s resume r, Q node s resume r → FailsAsNode r)
    {given : Fields → Prop} {start : Fields} {journal : List Station} {result : RunResult}
    (h : g.Travelled Q given start journal result) :
    Counts g.table .blank journal result.error? result.state := by
  have hconclude (ending : WalkEnd) (t : State) {s : State} {journal : List Station}
      (h : Counts g.table s journal ending.error? t) :
      Counts g.table s journal (g.conclude (ending, t)).error? (g.conclude (ending, t)).state := by
    cases ending <;> exact ⟨h.visits, h.refused, h.last, h.exceeded⟩
  induction h with
  | @begun s t journal ending hcounters hwalk =>
    have hzero : Counts g.table .blank [] none s :=
      Counts.nil (fun _ id => by unfold visitsOf; rw [hcounters]; rfl) (by rintro _ ⟨⟩)
    exact hzero.append (hconclude ending t (hwalk.counts hQ)) fun _ => rfl
  | again h _ hwalk ih => exact ih.append (hconclude _ _ (hwalk.counts hQ)) fun _ => rfl
  | @lost _ journal _ s h cause ih =>
    have hlost : Counts g.table s [] (some (.checkpoint cause)) .blank :=
      Counts.nil (by rintro ⟨⟩) (by rintro _ ⟨⟩; exact id)
    rw [← List.append_nil journal]
    exact ih.append hlost fun _ => rfl

end GraphFrame

/-- A fresh visit of a node whose limit is used up ends the walk before anything is done. -/
theorem GraphFrame.walkFrom_of_exceeded {g : GraphFrame} {runner? : String → Option Runner}
    {runner : Runner} {s : State} {node : String} {limit : Nat}
    (hrunner : runner? node = some runner) (hlimit : g.table.limit? node = some limit)
    (hle : limit ≤ visitsOf s node) (scope : Scope) (budget : Option Nat) (steps : Nat) :
    g.walkFrom runner? scope budget s node none (steps + 1) =
      pure (.failed (.loopLimitExceeded node limit), visited s node) := by
  rw [walkFrom_succ]
  unfold enter
  rw [hrunner]
  dsimp only
  rw [visit_of_limit s hlimit, if_pos hle]
  rfl

/-! ## The main result -/

theorem GraphNode.runner_failsAsNode (node : GraphNode) (s : State) (scope : Scope)
    (resume : Option Value) :
    (node.runner s scope resume).Obeys (fun _ => True) GraphFrame.FailsAsNode := by
  have hnode : node.EveryGraph (GraphNode.StoredIn fun _ => True) :=
    GraphNode.everyGraph_of_forall node fun _ _ _ _ => trivial
  refine (GraphNode.runner_obeys hnode s scope resume).mono (fun _ _ => trivial) fun r hr e he => ?_
  obtain ⟨_, _, _, rfl⟩ := hr.fails e he
  exact id

/-- **Loop limits are exact over a whole run.** Follow a run of any graph from the entry through all
its suspensions, in whatever worlds its calls are made, as long as its thread is loaded with what
it was suspended with. An entry of a node is refused if and only if it is a fresh one, the node has a
limit, and the node has been entered afresh as often before as the limit says; it is then the last
entry, and what the run fails with. So a node with a limit is never visited afresh more often, and a
run that fails for a limit has entered the node once more than that. A visit that is refused ends
the walk before the node has done anything. A thread of a compiled graph on a working store, if it is
left alone, recalls what it was suspended with, so that its run can always be followed on. -/
theorem loop_limits_are_exact {σ : Type} (host : Host σ) (g : Graph) (thread : String) :
    (∀ start journal result, g.Journey thread host (fun _ => True) start journal result →
      (∀ front e back, journal = front ++ e :: back →
        (e.fate.isRefused = true ↔ e.resume = none ∧ ∃ limit,
          g.frame.table.limit? e.node = some limit ∧ limit ≤ timesEntered e.node front) ∧
        (e.fate.isRefused = true → back = [] ∧ ∃ limit s,
          g.frame.table.limit? e.node = some limit ∧ timesEntered e.node front = limit ∧
          result = .failed (.loopLimitExceeded e.node limit) s)) ∧
      (∀ id limit, g.frame.table.limit? id = some limit → timesAdmitted id journal ≤ limit) ∧
      ∀ id limit s, result = .failed (.loopLimitExceeded id limit) s →
        g.frame.table.limit? id = some limit ∧ timesEntered id journal = limit + 1) ∧
    (∀ id runner limit s, g.runner? id = some runner → g.frame.table.limit? id = some limit →
      limit ≤ visitsOf s id → ∀ scope budget steps,
      g.frame.walkFrom g.runner? scope budget s id none (steps + 1) =
        pure (.failed (.loopLimitExceeded id limit), GraphFrame.visited s id)) ∧
    ∀ (c : Compiler) (store : Store) (depth : Nat) (stack : SourceStack) (d : Definition)
      (made : Graph) (config : RunConfig), c.assemble (some store) depth stack d = .ok made →
      g = made.withConfig config → ∀ Sound, store.Works Sound →
      ∀ w : World σ, w.Undisturbed store Sound thread → ∀ call, g.Serves thread call →
      ∀ pending s, (call.run host w).1 = .suspended pending s →
        (call.run host w).2.Undisturbed store Sound thread ∧
          g.Recalls thread s host (call.run host w).2 := by
  refine ⟨fun start journal result h => ?_, fun id runner limit s hrunner hlimit hle scope budget
    steps => GraphFrame.walkFrom_of_exceeded hrunner hlimit hle scope budget steps, ?_⟩
  · have hcounts := GraphFrame.Travelled.counts (fun _ _ _ _ hr => hr) <| h.travelled
      (Q := fun _ _ _ => GraphFrame.FailsAsNode) fun id runner hrunner s scope resume => by
        obtain ⟨node, _, rfl⟩ := GraphNode.exists_of_runnerIn? hrunner
        exact node.runner_failsAsNode s scope resume
    have hzero : ∀ id, visitsOf .blank id = 0 := fun _ => rfl
    refine ⟨fun front e back heq => ⟨?_, fun hfate => ?_⟩, fun id limit hlimit =>
      hcounts.timesAdmitted_le hzero hlimit (List.append_nil _).symm, fun id limit s hfailed => ?_⟩
    · have hrefused := hcounts.refused front e back heq
      rwa [hzero, Nat.zero_add] at hrefused
    · obtain ⟨hback, limit, hlimit, htimes, herror⟩ :=
        hcounts.timesEntered_of_refused hzero heq hfate
      cases result with
      | complete => cases herror
      | suspended => cases herror
      | failed e' s =>
        cases herror
        exact ⟨hback, limit, s, hlimit, htimes, rfl⟩
    · subst hfailed
      exact hcounts.timesEntered_of_exceeded hzero rfl
  · rintro c store depth stack d made config hmade rfl Sound hworks w hw call hcall pending s hcalled
    have hwired := Compiler.wired_of_assemble hmade
    exact hw.recalls hworks (g := made.withConfig config) hwired.here.store
      (fun p hp => (hwired.inside p hp).mono fun _ _ h => h.storedIn) host hcall hcalled

/-- A node that asks for a name until it is given one, at most once. -/
def insistence : Definition where
  version := none
  name := "insistence"
  description := none
  entry := none
  defaults := .standard
  tools := []
  nodes := [⟨"ask", .interrupt ⟨some "Name?", none, [], "name"⟩, .unset⟩]
  edges := [⟨"ask", .one "END", some "name"⟩, ⟨"ask", .one "ask", none⟩]
  loopLimits := [("ask", 1)]
  checkpoint := none

/-- The graph that it is compiled to. -/
def insistenceGraph : Graph where
  frame :=
    { name := "insistence"
      table := ⟨"ask", [("ask", .conditional [(⟨"name", .path ["name"]⟩, .finish)]
        (some (.node "ask")))], [("ask", 1)], [["ask"]]⟩
      shape := ⟨[("ask_message", ⟨.any, .overwrite, ["ask"], .output⟩),
        ("name", ⟨.any, .overwrite, ["ask"], .implicit⟩)]⟩
      config := .standard
      store := some .memory }
  nodes := [("ask", .leaf ⟨"ask", some "ask_message", ⟨.fail, none, none, [], []⟩⟩
    (.interrupt ⟨.template "Name?", [], "ask_message", "name", false⟩))]

/-- Whoever answers once without a name is not asked again: entering the node a second time is
refused, although it has been entered again in between. -/
theorem insisting_twice_is_refused :
    bareCompiler.assemble (some .memory) 1 .empty insistence = .ok insistenceGraph ∧
      ∃ journal s, insistenceGraph.Journey "t" downHost (fun _ => True) [] journal
          (.failed (.loopLimitExceeded "ask" 1) s) ∧
        journal.map Station.node = ["ask", "ask", "ask"] ∧ timesEntered "ask" journal = 2 := by
  have hmade : bareCompiler.assemble (some .memory) 1 .empty insistence = .ok insistenceGraph := by
    with_unfolding_all rfl
  let pending : PendingInterrupt := ⟨"ask", "name", .text "Name?", false⟩
  let asked : State := ⟨[("ask_message", .text "Name?")], 1, [("ask", 1)], [], some pending⟩
  let refused : State := ⟨[("ask_message", .text "Name?"), ("name", .bool false)], 2, [("ask", 2)],
    [.ending "ask" (RunError.loopLimitExceeded "ask" 1).message 2], none⟩
  have hasked : ((insistenceGraph.run (.object []) "t").run downHost (.initial () .empty)).1 =
      .suspended pending asked := by
    with_unfolding_all rfl
  obtain ⟨hexact, _, hkeeps⟩ := loop_limits_are_exact downHost insistenceGraph "t"
  obtain ⟨_, hrecalls⟩ := hkeeps bareCompiler .memory 1 .empty insistence insistenceGraph .standard
    hmade rfl _ Store.memory_works _ (World.Undisturbed.of_begins (begins_empty "t")) _
    (.inl ⟨_, rfl⟩) pending asked hasked
  have hbegun : insistenceGraph.Journey "t" downHost (fun _ => True) []
      ((insistenceGraph.journalRun [] "t").run downHost (.initial () .empty)).1.1
      (.suspended pending asked) :=
    @Graph.Journey.begun _ _ _ _ _ (.initial () .empty) none [] trivial (by with_unfolding_all rfl)
      (by rintro _ ⟨⟩)
  have hjourney : insistenceGraph.Journey "t" downHost (fun _ => True) [] _
      (.failed (.loopLimitExceeded "ask" 1) refused) :=
    hbegun.again hrecalls (.inr ⟨.bool false, rfl⟩)
  refine ⟨hmade, _, refused, hjourney, by with_unfolding_all rfl, ?_⟩
  exact ((hexact _ _ _ hjourney).2.2 "ask" 1 refused rfl).2

end WorkflowGraph
