import WorkflowGraph.Graph.Walk
import WorkflowGraph.Proofs.Activity.Meets
import WorkflowGraph.Proofs.Activity.Obeys

/-!
# Walks step by step

A walk is a sequence of steps, and each step enters one node: the node is looked up, its visit is
counted, it is executed, and what it has come to is merged. `GraphFrame.enter` is one such step,
and `GraphFrame.walkFrom_succ` says that a walk is nothing but steps. What a whole run does is
proved from what one step does, by induction on the number of steps.

There is one rule for each part of a walk, under any regime: for carrying out a node
(`carryOut_meets`), for a step (`enter_meets`) and for the whole walk (`walkFrom_meets`). The last
one is the induction on the steps: it asks for an invariant of the state, the node that is entered
next and the world, which every step keeps, and from which every end follows.
-/

set_option autoImplicit false

/-! ## Steps -/

namespace WorkflowGraph

/-- What one step of a walk has come to: whether the node has been executed, how the walk goes
on, the state, and the time that is left. -/
structure WalkStep where
  executed : Bool
  onward : GraphFrame.Onward
  state : State
  budget : Option Nat

namespace GraphFrame

/-- Save a state before the walk goes on or ends. A store that fails ends it. -/
def saveThen (g : GraphFrame) (thread : String) (s : State) (next : Option String)
    (onward : Onward) : Activity (Onward × State) := do
  match ← g.save thread s next with
  | .error e => pure (.stop (.failed e), s)
  | .ok _ => pure (onward, s)

/-- The part of a step in which a node is executed, by an activity that does so, and what it has
come to is merged. -/
def carryOut (g : GraphFrame) (thread : String) (budget : Option Nat) (s : State) (node : String)
    (p : Activity NodeRun) : Activity WalkStep := do
  match ← p.withinOption budget with
  | none =>
    pure ⟨true, .stop (.failed (.workflowTimeout (g.config.workflowTimeout.getD ⟨0⟩))), s, none⟩
  | some (r, budget) =>
    match r.result with
    | .error e => pure ⟨true, .stop (.failed e), afterRun s r, budget⟩
    | .ok outcome => do
      let settled ← g.settle thread node (afterRun s r) outcome
      pure ⟨true, settled.1, settled.2, budget⟩

/-- One step of a walk. -/
def enter (g : GraphFrame) (runner? : String → Option Runner) (scope : Scope)
    (budget : Option Nat) (s : State) (node : String) (resume : Option Value) :
    Activity WalkStep :=
  match runner? node with
  | none => pure ⟨false, .stop (.failed (.state (.unknownNode node))), s, budget⟩
  | some runner =>
    match g.visit s node resume with
    | (.error e, s) => pure ⟨false, .stop (.failed e), s, budget⟩
    | (.ok _, s) => g.carryOut scope.thread budget s node (runner s scope resume)

theorem visit_eq (g : GraphFrame) (s : State) (node : String) (resume : Option Value) :
    ∃ counters, (g.visit s node resume).2 = { s with loopCounters := counters } := by
  unfold visit
  split
  · dsimp only
    split
    · exact ⟨_, rfl⟩
    · exact ⟨_, rfl⟩
  · exact ⟨s.loopCounters, rfl⟩

theorem visit_some (g : GraphFrame) (s : State) (node : String) (value : Value) :
    g.visit s node (some value) = (.ok (), s) := rfl

/-- What is left of a walk after a step. -/
def goOn (g : GraphFrame) (runner? : String → Option Runner) (scope : Scope) (steps : Nat)
    (r : WalkStep) : Activity (WalkEnd × State) :=
  match r.onward with
  | .stop ending => pure (ending, r.state)
  | .go next => g.walkFrom runner? scope r.budget r.state next none steps

/-- A walk is one step and what is left of it after the step. -/
theorem walkFrom_succ (g : GraphFrame) (runner? : String → Option Runner) (scope : Scope)
    (budget : Option Nat) (s : State) (node : String) (resume : Option Value) (steps : Nat) :
    g.walkFrom runner? scope budget s node resume (steps + 1) =
      g.enter runner? scope budget s node resume >>= g.goOn runner? scope steps := by
  unfold walkFrom enter
  cases runner? node with
  | none => rfl
  | some runner =>
    rcases hv : g.visit s node resume with ⟨visited, s⟩
    cases visited with
    | error e => rfl
    | ok _ =>
      dsimp only
      unfold carryOut
      rw [Activity.bind_bind]
      congr 1
      funext r
      rcases r with _ | ⟨r, budget⟩
      · rfl
      · cases hr : r.result with
        | error e =>
          simp only [hr]
          rfl
        | ok outcome =>
          simp only [hr]
          rw [Activity.bind_bind]
          congr 1
          funext settled
          rcases settled with ⟨onward, s⟩
          cases onward <;> rfl

/-- The result of a run whose walk has ended; a failure is recorded in the state. -/
def conclude (g : GraphFrame) : WalkEnd × State → RunResult
  | (.complete, s) => .complete s
  | (.suspended pending, s) => .suspended pending s
  | (.failed e, s) => .failed e (s.record (g.fatal e s))

theorem walk_eq (g : GraphFrame) (runner? : String → Option Runner) (s : State)
    (start thread : String) (resume : Option Value) :
    g.walk runner? s start thread resume =
      g.walkFrom runner? ⟨thread, g.config⟩ (g.config.workflowTimeout.map Duration.wholeMillis) s
        start resume g.config.maxSteps >>= fun r => pure (g.conclude r) := by
  unfold walk
  dsimp only
  congr 1
  funext r
  rcases r with ⟨ending, t⟩
  cases ending <;> rfl

end GraphFrame

end WorkflowGraph

/-! ## Rules for walks -/

namespace WorkflowGraph.GraphFrame

open Activity

variable {M : Type} {R : Regime M} {inv : M → Prop} {g : GraphFrame}
  {runner? : String → Option Runner}

theorem carryOut_meets {post : NodeRun → M → Prop} (goal : Onward → State → M → Prop)
    {thread node : String} {budget : Option Nat} {s : State} {p : Activity NodeRun} {m : M}
    (hp : p.Meets R inv post m)
    (hcut : ∀ k, inv k → ∀ after, goal (.stop (.failed (.workflowTimeout after))) s k)
    (herror : ∀ r e k, post r k → r.result = .error e →
      goal (.stop (.failed e)) (afterRun s r) k)
    (hok : ∀ r outcome k, post r k → r.result = .ok outcome →
      (g.settle thread node (afterRun s r) outcome).Meets R inv (fun x => goal x.1 x.2) k) :
    (g.carryOut thread budget s node p).Meets R inv (fun r => goal r.onward r.state) m := by
  unfold carryOut
  apply meets_bind (hp.withinOption budget)
  rintro (_ | ⟨r, left⟩) k hk
  · exact hcut k hk _
  · dsimp only
    cases hr : r.result with
    | error e => exact herror r e k hk hr
    | ok outcome => exact meets_bind (hok r outcome k hk hr) fun _ _ hx => hx

/-- A step enters an unknown node, or one whose limit is used up, or carries it out. -/
theorem enter_meets (goal : Onward → State → M → Prop) {scope : Scope} {budget : Option Nat}
    {s : State} {node : String} {resume : Option Value} {m : M}
    (hunknown : runner? node = none → goal (.stop (.failed (.state (.unknownNode node)))) s m)
    (hlimit : ∀ limit t, g.visit s node resume = (.error (.loopLimitExceeded node limit), t) →
      goal (.stop (.failed (.loopLimitExceeded node limit))) t m)
    (hcarry : ∀ runner t, runner? node = some runner → g.visit s node resume = (.ok (), t) →
      (g.carryOut scope.thread budget t node (runner t scope resume)).Meets R inv
        (fun r => goal r.onward r.state) m) :
    (g.enter runner? scope budget s node resume).Meets R inv
      (fun r => goal r.onward r.state) m := by
  unfold enter
  cases hrunner : runner? node with
  | none => exact hunknown hrunner
  | some runner =>
    rcases hv : g.visit s node resume with ⟨visited, t⟩
    cases visited with
    | ok _ => exact hcarry runner t hrunner hv
    | error e =>
      have he : ∃ limit, e = .loopLimitExceeded node limit := by
        unfold visit at hv
        split at hv
        · dsimp only at hv
          split at hv
          · simp only [Prod.mk.injEq, Except.error.injEq] at hv
            exact ⟨_, hv.1.symm⟩
          · cases hv
        · cases hv
      obtain ⟨limit, rfl⟩ := he
      exact hlimit limit t hv

/-- A walk whose steps keep an invariant ends as the invariant says. By induction on the number
of steps that are left. -/
theorem walkFrom_meets (before : State → String → Option Value → M → Prop)
    (goal : WalkEnd → State → M → Prop) {scope : Scope}
    (hsteps : ∀ s node resume m, before s node resume m →
      goal (.failed (.maxStepsExceeded g.config.maxSteps)) s m)
    (hstep : ∀ budget s node resume m, before s node resume m →
      (g.enter runner? scope budget s node resume).Meets R inv
        (fun r k =>
          match r.onward with
          | .stop ending => goal ending r.state k
          | .go next => before r.state next none k) m)
    (budget : Option Nat) {s : State} {node : String} {resume : Option Value} (steps : Nat)
    {m : M} (h : before s node resume m) :
    (g.walkFrom runner? scope budget s node resume steps).Meets R inv
      (fun r => goal r.1 r.2) m := by
  induction steps generalizing budget s node resume m with
  | zero => exact hsteps s node resume m h
  | succ steps ih =>
    rw [walkFrom_succ]
    apply meets_bind (hstep budget s node resume m h)
    intro r k hr
    unfold goOn
    cases honward : r.onward with
    | stop ending =>
      rw [honward] at hr
      exact hr
    | go next =>
      rw [honward] at hr
      exact ih r.budget hr

theorem walk_meets {goal : RunResult → M → Prop} {s : State} {start thread : String}
    {resume : Option Value} {m : M}
    (h : (g.walkFrom runner? ⟨thread, g.config⟩ (g.config.workflowTimeout.map Duration.wholeMillis)
      s start resume g.config.maxSteps).Meets R inv (fun r k => goal (g.conclude r) k) m) :
    (g.walk runner? s start thread resume).Meets R inv goal m := by
  rw [walk_eq]
  exact meets_bind h fun _ _ hr => hr

end WorkflowGraph.GraphFrame
