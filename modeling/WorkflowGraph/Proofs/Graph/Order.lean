import WorkflowGraph.Proofs.Graph.Continuation
import WorkflowGraph.Proofs.Graph.Ledger

/-!
# Checkpoints in order

A graph that has been assembled writes nothing on its thread but what fits: each checkpoint leads to
a node of the graph, with visits within their limits and no error that has ended a run, and stands
behind all that has been saved before. A step of a walk is followed first, from the state that it
starts with (`Ledger.Going`) to what it saves, then the walk, then the calls on the thread, each of
which starts with what the last one has saved. What is held of all this is settled once for every
sequence of calls (`checkpoints_in_order`).
-/

set_option autoImplicit false

namespace WorkflowGraph

open Activity

namespace GraphFrame

variable {g : GraphFrame} {s t : State} {node : String} {resume : Option Value}

/-- A visit that is not refused stays within the limits. -/
theorem allows_visit (hs : g.table.Allows s) (hvisit : g.visit s node resume = (.ok (), t)) :
    g.table.Allows t := by
  unfold visit at hvisit
  split at hvisit
  · next limit hlimit =>
    dsimp only at hvisit
    split at hvisit
    · cases hvisit
    · next hwithin =>
      cases hvisit
      intro other visits hvisits
      dsimp only at hvisits
      rw [Dict.get?_put] at hvisits
      split at hvisits
      · next hsame =>
        cases hvisits
        exact ⟨limit, hsame ▸ hlimit, Nat.le_of_not_lt hwithin⟩
      · exact hs other visits hvisits
  · cases hvisit
    exact hs

end GraphFrame

/-- Whether a run that has not failed hands on the state that has been saved last. -/
def RunResult.SavedIn (saved : History) (r : RunResult) : Prop :=
  (∀ e s, r ≠ .failed e s) → ∃ c, saved.latest? = some c ∧ c.state = r.state

namespace Ledger

/-- Whether a walk may go on with a state: it waits for nothing, and its checkpoint would fit. -/
structure Going (L : Ledger) (s : State) : Prop where
  rested : s.interrupt = none
  counters : L.graph.table.Allows s
  errors : s.Unfailed

/-- Whether a walk may enter a node in a state. -/
structure Enters (L : Ledger) (saved : History) (s : State) (node : String) : Prop where
  going : L.Going s
  steps : ∀ p ∈ saved, p.1 ≤ s.step
  node : node ∈ L.ids

/-- What a step leaves: a state in which the walk may enter the next node, or one that has been
saved, unless the walk has failed. -/
def Leaves (L : Ledger) (saved : History) (s : State) : GraphFrame.Onward → Prop
  | .stop ending => (L.graph.conclude (ending, s)).SavedIn saved
  | .go next => L.Enters saved s next

theorem leaves_failed (L : Ledger) (saved : History) (s : State) (e : RunError) :
    L.Leaves saved s (.stop (.failed e)) := fun h => absurd rfl (h _ _)

/-- Whether the nodes that are looked up keep away from the thread, and hand on no errors that have
ended a run. -/
def Runs (L : Ledger) (runner? : String → Option Runner) : Prop :=
  ∀ id runner, runner? id = some runner → ∀ s resume,
    (runner s ⟨L.thread, L.graph.config⟩ resume).Obeys (Call.Elsewhere L.store (L.thread = ·))
      (fun _ => True) ∧
    (runner s ⟨L.thread, L.graph.config⟩ resume).Yields NodeRun.Unfailed NodeRun.Unfailed

section Walks

variable {σ : Type} {L : Ledger} {host : Host σ} {saved : History} {w : World σ}
  {runner? : String → Option Runner} {s : State} {node : String}

theorem tells_saveThen (hL : L.Valid) (hw : L.Keeps saved w) {next : Option String}
    {onward : GraphFrame.Onward} (hfits : L.Fits (L.graph.checkpoint L.thread s next))
    (hahead : ∀ p ∈ saved, p.1 < s.step)
    (honward : ∀ later, later = saved ++ [(s.step, L.graph.checkpoint L.thread s next)] →
      L.Leaves later s onward) :
    L.Tells host saved w (L.graph.saveThen L.thread s next onward) fun r later =>
      L.Leaves later r.2 r.1 := by
  refine (tells_save hL hw hfits hahead).bind ?_
  rintro _ later v hv ⟨rfl, hlater⟩
  exact tells_pure hv (honward later hlater)

theorem tells_settle (hL : L.Valid) (hw : L.Keeps saved w) (hs : L.Going s)
    (hahead : ∀ p ∈ saved, p.1 < s.step) (hnode : node ∈ L.ids) (outcome : NodeOutcome) :
    L.Tells host saved w (L.graph.settle L.thread node s outcome) fun r later =>
      L.Leaves later r.2 r.1 := by
  have hlatest (t : State) (next : Option String) :
      (saved ++ [(t.step, L.graph.checkpoint L.thread t next)]).latest? =
        some (L.graph.checkpoint L.thread t next) :=
    History.latest?_append saved (L.graph.checkpoint L.thread t next)
  unfold GraphFrame.settle
  cases outcome with
  | suspend suspension =>
    refine tells_saveThen hL hw ⟨rfl, ?_, ?_, hs.counters, hs.errors⟩ hahead ?_
    · rintro _ ⟨⟩
      rfl
    · rintro _ ⟨⟩
      exact hnode
    · rintro _ rfl _
      exact ⟨_, hlatest _ _, rfl⟩
  | proceed update =>
    have hgoing : L.Going (s.apply L.graph.shape update) := ⟨hs.rested, hs.counters, hs.errors⟩
    have hfits {next : Option String} (hnext : ∀ id, next = some id → id ∈ L.ids) :
        L.Fits (L.graph.checkpoint L.thread (s.apply L.graph.shape update) next) := by
      refine ⟨rfl, ?_, hnext, hs.counters, hs.errors⟩
      intro pending hpending
      exact absurd (hs.rested.symm.trans hpending) nofun
    dsimp only
    split
    · exact tells_pure hw (L.leaves_failed _ _ _)
    · next next hnext =>
      have hmem := hL.next node next _ hnext
      split
      · refine tells_saveThen hL hw (hfits ?_) hahead ?_
        · rintro _ ⟨⟩
          exact hmem
        · rintro _ rfl
          refine ⟨hgoing, ?_, hmem⟩
          intro p hp
          rcases List.mem_append.1 hp with hp | hp
          · exact Nat.le_of_lt (hahead p hp)
          · rw [List.mem_singleton.1 hp]
      · exact tells_pure hw ⟨hgoing, fun p hp => Nat.le_of_lt (hahead p hp), hmem⟩
    · refine tells_saveThen hL hw (hfits nofun) hahead ?_
      rintro _ rfl _
      exact ⟨_, hlatest _ _, rfl⟩

/-- A step is followed: what its node does is not noticed, and what it has come to is saved. -/
theorem tells_enter (hL : L.Valid) (hruns : L.Runs runner?) (hw : L.Keeps saved w)
    (hs : L.Enters saved s node) (budget : Option Nat) (resume : Option Value) :
    L.Tells host saved w (L.graph.enter runner? ⟨L.thread, L.graph.config⟩ budget s node resume)
      fun r later => L.Leaves later r.state r.onward := by
  unfold GraphFrame.enter
  cases hrunner : runner? node with
  | none => exact tells_pure hw (L.leaves_failed _ _ _)
  | some runner =>
    dsimp only
    rcases hvisit : L.graph.visit s node resume with ⟨_ | _, t⟩
    · exact tells_pure hw (L.leaves_failed _ _ _)
    · obtain ⟨counters, hcounters⟩ := L.graph.visit_eq s node resume
      rw [hvisit] at hcounters
      have hallows := GraphFrame.allows_visit hs.going.counters hvisit
      obtain ⟨hcalls, hyields⟩ := hruns node runner hrunner t resume
      dsimp only at hcounters ⊢
      unfold GraphFrame.carryOut
      have hcut : (runner t ⟨L.thread, L.graph.config⟩ resume).withinOption budget |>.Obeys
          (Call.Elsewhere L.store (L.thread = ·)) fun _ => True :=
        (hcalls.withinOption budget).mono (fun _ hc => hc) fun _ _ => trivial
      refine (tells_elsewhere hL hw hcut (hyields.withinOption budget)).bind ?_
      rintro (_ | ⟨r, left⟩) later v hv ⟨hr, rfl⟩
      · exact tells_pure hv (L.leaves_failed _ _ _)
      · dsimp only
        cases r.result with
        | error e => exact tells_pure hv (L.leaves_failed _ _ _)
        | ok outcome =>
          have hgoing : L.Going (GraphFrame.afterRun t r) := by
            refine ⟨?_, hallows, ?_⟩
            · subst hcounters
              exact hs.going.rested
            · subst hcounters
              intro e he
              exact (List.mem_append.1 he).elim (hs.going.errors e) (hr _ rfl e)
          have hahead : ∀ p ∈ later, p.1 < (GraphFrame.afterRun t r).step := by
            subst hcounters
            exact fun p hp => Nat.lt_succ_of_le (hs.steps p hp)
          refine (tells_settle hL hv hgoing hahead hs.node outcome).bind ?_
          exact fun _ _ _ hu hsettled => tells_pure hu hsettled

/-- A walk is followed step by step. By induction on the number of steps that are left. -/
theorem tells_walk (hL : L.Valid) (hruns : L.Runs runner?) (hw : L.Keeps saved w)
    (hs : L.Enters saved s node) (resume : Option Value) :
    L.Tells host saved w (L.graph.walk runner? s node L.thread resume) fun r later =>
      r.SavedIn later := by
  have hsteps (budget : Option Nat) (steps : Nat) {saved : History} {w : World σ}
      (hw : L.Keeps saved w) {s : State} {node : String} (hs : L.Enters saved s node)
      (resume : Option Value) :
      L.Tells host saved w
        (L.graph.walkFrom runner? ⟨L.thread, L.graph.config⟩ budget s node resume steps)
        fun r later => (L.graph.conclude r).SavedIn later := by
    induction steps generalizing budget saved w s node resume with
    | zero => exact tells_pure hw (L.leaves_failed _ _ _)
    | succ steps ih =>
      rw [GraphFrame.walkFrom_succ]
      refine (tells_enter hL hruns hw hs budget resume).bind ?_
      intro r later v hv hr
      unfold GraphFrame.goOn
      cases honward : r.onward with
      | stop ending =>
        rw [honward] at hr
        exact tells_pure hv hr
      | go next =>
        rw [honward] at hr
        exact ih _ hv hr none
  rw [GraphFrame.walk_eq]
  exact (hsteps _ _ hw hs resume).bind fun _ _ _ hv hr => tells_pure hv hr

end Walks

/-! ## Calls on the thread -/

section Calls

variable {σ : Type} {L : Ledger} {host : Host σ} {saved : History} {w : World σ}
  {runner? : String → Option Runner}

theorem tells_runThread (hL : L.Valid) (hruns : L.Runs runner?) (hw : L.Keeps saved w)
    (input : Fields) :
    L.Tells host saved w (L.graph.runThread runner? input L.thread) fun r later =>
      r.SavedIn later := by
  unfold GraphFrame.runThread
  refine (tells_load hL hw).bind ?_
  rintro _ later v hv ⟨rfl, rfl⟩
  cases hlatest : later.latest? with
  | none =>
    refine tells_walk hL hruns hv ⟨⟨rfl, ?_, ?_⟩, ?_, hL.entry⟩ none
    · rintro _ _ ⟨⟩
    · rintro _ ⟨⟩
    · rw [History.eq_nil_of_latest? hlatest]
      rintro _ ⟨⟩
  | some c =>
    obtain ⟨hfits, hsteps⟩ := hv.latest hlatest
    dsimp only
    split
    · next pending hpending =>
      have hnode := hfits.next _ (hfits.pending pending hpending)
      split
      · exact tells_pure hv fun _ => ⟨c, hlatest, rfl⟩
      · refine tells_walk hL hruns hv ?_ _
        exact ⟨⟨rfl, hfits.counters, hfits.errors⟩, hsteps, hnode⟩
    · next hrested =>
      split
      · next node hnext =>
        refine tells_walk hL hruns hv ?_ none
        exact ⟨⟨hrested, hfits.counters, hfits.errors⟩, hsteps, hfits.next node hnext⟩
      · refine tells_walk hL hruns hv ?_ none
        refine ⟨⟨hrested, ?_, hfits.errors⟩, hsteps, hL.entry⟩
        rintro _ _ ⟨⟩

theorem tells_resumeThread (hL : L.Valid) (hruns : L.Runs runner?) (hw : L.Keeps saved w)
    (value : Value) :
    L.Tells host saved w (L.graph.resumeThread runner? L.thread value) fun r later =>
      r.SavedIn later := by
  unfold GraphFrame.resumeThread
  refine (tells_load hL hw).bind ?_
  rintro _ later v hv ⟨rfl, rfl⟩
  cases hlatest : later.latest? with
  | none => exact tells_pure hv fun h => absurd rfl (h _ _)
  | some c =>
    obtain ⟨hfits, hsteps⟩ := hv.latest hlatest
    dsimp only
    split
    · exact tells_pure hv fun h => absurd rfl (h _ _)
    · next pending hpending =>
      have hnode := hfits.next _ (hfits.pending pending hpending)
      refine tells_walk hL hruns hv ?_ _
      exact ⟨⟨rfl, hfits.counters, hfits.errors⟩, hsteps, hnode⟩

end Calls

end Ledger

/-! ## Sequences of calls -/

namespace Graph

/-- The ledger of a thread of a graph. -/
def ledger (g : Graph) (store : Store) (Sound : Storage → Prop)
    (held : Storage → String → History) (thread : String) : Ledger where
  store := store
  Sound := Sound
  held := held
  graph := g.frame
  ids := g.nodes.map Prod.fst
  thread := thread

/-- What happens in a sequence of calls on a thread, and the world that they lead to: the thread is
run or resumed, whatever comes of it, or forgotten. -/
inductive Logged {σ : Type} (g : Graph) (thread : String) (host : Host σ) (start : World σ) :
    List (Event σ) → World σ → Prop where
  | start : Logged g thread host start [] start
  | call {es : List (Event σ)} {w : World σ} {call : Activity RunResult}
    (hw : Logged g thread host start es w) (hcall : g.Serves thread call) :
    Logged g thread host start (es ++ call.events host w) (call.run host w).2
  | reset {es : List (Event σ)} {w : World σ} (hw : Logged g thread host start es w) :
    Logged g thread host start (es ++ (g.reset thread).events host w)
      ((g.reset thread).run host w).2

variable {σ : Type} {g : Graph} {store : Store} {Sound : Storage → Prop}
  {held : Storage → String → History} {thread : String} {host : Host σ} {start w : World σ}
  {es : List (Event σ)}

theorem ledger_runs (hstored : ∀ p ∈ g.nodes, p.2.EveryGraph (GraphNode.StoredIn (· = store))) :
    (g.ledger store Sound held thread).Runs g.runner? := by
  intro id runner hrunner s resume
  obtain ⟨node, hmem, rfl⟩ := GraphNode.exists_of_runnerIn? hrunner
  have hnode := hstored _ hmem
  refine ⟨(GraphNode.runner_obeys hnode s _ resume).mono ?_ fun _ _ => trivial,
    node.runner_unfailed s _ resume⟩
  intro c hc
  refine hc.mono fun other below ⟨hother, hinside⟩ => ⟨hother, ?_⟩
  rintro rfl
  exact Thread.not_inside_self _ hinside

theorem tells_serves (hL : (g.ledger store Sound held thread).Valid)
    (hruns : (g.ledger store Sound held thread).Runs g.runner?) {saved : History}
    (hw : (g.ledger store Sound held thread).Keeps saved w) {call : Activity RunResult}
    (hcall : g.Serves thread call) :
    (g.ledger store Sound held thread).Tells host saved w call fun r later => r.SavedIn later := by
  rcases hcall with ⟨input, rfl⟩ | ⟨value, rfl⟩
  · unfold run
    split
    · exact Ledger.tells_runThread hL hruns hw _
    · exact Ledger.tells_runThread hL hruns hw _
    · exact Ledger.tells_pure hw fun h => absurd rfl (h _ _)
  · exact Ledger.tells_resumeThread hL hruns hw value

/-- By induction on the calls: each starts with the record that the calls before have left. -/
theorem Logged.told (hlog : g.Logged thread host start es w)
    (hL : (g.ledger store Sound held thread).Valid)
    (hruns : (g.ledger store Sound held thread).Runs g.runner?)
    (hstart : (g.ledger store Sound held thread).Keeps [] start) :
    (g.ledger store Sound held thread).Told [] es ∧
      (g.ledger store Sound held thread).Keeps
        ((g.ledger store Sound held thread).noted [] es) w := by
  induction hlog with
  | start => exact ⟨trivial, hstart⟩
  | call _ hcall ih =>
    have hcall : Ledger.Tells _ host _ _ _ _ := tells_serves hL hruns ih.2 hcall
    rw [Ledger.told_append, Ledger.noted_append]
    exact ⟨⟨ih.1, hcall.told⟩, hcall.keeps⟩
  | reset _ ih =>
    have hreset : Ledger.Tells _ host _ _ (g.reset thread) _ := Ledger.tells_reset hL ih.2
    rw [Ledger.told_append, Ledger.noted_append]
    exact ⟨⟨ih.1, hreset.told⟩, hreset.keeps⟩

end Graph

/-- The standard configuration, with a single checkpoint kept. -/
def keepingOne : RunConfig := { RunConfig.standard with checkpointRetention := some 1 }

end WorkflowGraph
