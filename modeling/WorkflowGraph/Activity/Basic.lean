import WorkflowGraph.Checkpoint.Store
import WorkflowGraph.Node.Outcome
import WorkflowGraph.Task

/-!
# Activities

What a run does is an activity: a tree of the calls that it makes to executors, tools and
checkpoint stores, of the time that it lets pass, of the tasks that it starts beside itself,
and of how it goes on after each answer. An activity does nothing by itself; it is carried
out against a world in `WorkflowGraph.Activity.Run`. Since an activity is data, it can be cut
off when its time is up. The tasks that it has started are not cut off with it.

Time is counted in milliseconds; a duration takes up as many of them as it begins.
-/

set_option autoImplicit false

namespace WorkflowGraph

/-- What an activity asks of the world around it. -/
inductive Call where
  | task (executor : Executor) (request : TaskRequest)
  | tool (name : String) (arguments : Value)
  | load (store : Store) (thread : String)
  | save (store : Store) (checkpoint : Checkpoint)
  | delete (store : Store) (thread : String)
  | prune (store : Store) (thread : String) (keep : Nat)

/-- The answer of an executor or a tool, and the milliseconds that pass until it is there. -/
structure Response where
  delay : Nat
  result : Except TaskError Value

/-- The answer to a call. -/
abbrev Call.Answer : Call → Type
  | .task _ _ => Response
  | .tool _ _ => Response
  | .load _ _ => Except StoreError (Option Checkpoint)
  | .save _ _ => Except StoreError Unit
  | .delete _ _ => Except StoreError Unit
  | .prune _ _ _ => Except StoreError Nat

/-- The milliseconds that a duration begins. -/
def Duration.wholeMillis (d : Duration) : Nat := (d.nanos + 999999) / 1000000

/-- An activity with a result. Tasks are started in a group, which has a number and carries
out at most `limit` of them at a time. Whoever joins a group goes on when all its tasks are
done, with their results in the order of the tasks, or after a span without any; in both
cases with the time that has passed. -/
inductive Activity : Type → Type 1 where
  | done {α : Type} (result : α) : Activity α
  | wait {α : Type} (span : Nat) (rest : Activity α) : Activity α
  | ask {α : Type} (call : Call) (rest : call.Answer → Activity α) : Activity α
  | start {α : Type} (limit count : Nat) (task : Fin count → Activity NodeRun)
    (rest : Nat → Activity α) : Activity α
  | join {α : Type} (group : Nat) (span : Option Nat)
    (rest : Option (List NodeRun) → Nat → Activity α) : Activity α

namespace Activity

variable {α β : Type}

/-- Go on with another activity when an activity is done. -/
def bind (p : Activity α) (next : α → Activity β) : Activity β :=
  match p with
  | .done a => next a
  | .wait n p => .wait n (p.bind next)
  | .ask c rest => .ask c fun a => (rest a).bind next
  | .start limit count task rest => .start limit count task fun g => (rest g).bind next
  | .join g span rest => .join g span fun runs spent => (rest runs spent).bind next

instance : Monad Activity where
  pure := .done
  bind := Activity.bind

@[simp] theorem bind_done (a : α) (next : α → Activity β) : (done a).bind next = next a := rfl

theorem bind_pure (p : Activity α) : p.bind .done = p := by
  induction p with
  | done => rfl
  | wait n p ih => simp [bind, ih]
  | ask c rest ih => simp [bind, ih]
  | start limit count task rest _ ih => simp [bind, ih]
  | join g span rest ih => simp [bind, ih]

theorem bind_assoc {γ : Type} (p : Activity α) (f : α → Activity β) (g : β → Activity γ) :
    (p.bind f).bind g = p.bind fun a => (f a).bind g := by
  induction p with
  | done => rfl
  | wait n p ih => simp [bind, ih]
  | ask c rest ih => simp [bind, ih]
  | start limit count task rest _ ih => simp [bind, ih]
  | join g span rest ih => simp [bind, ih]

/-- Ask for something and give the answer. -/
def perform (c : Call) : Activity c.Answer := .ask c .done

/-- Let time pass. -/
def sleep (span : Nat) : Activity Unit := if span = 0 then .done () else .wait span (.done ())

/-- The result of a response, after its delay. -/
def ofResponse (r : Response) : Activity (Except TaskError Value) := do
  sleep r.delay
  pure r.result

/-- Call an executor and wait for its answer. -/
def callTask (e : Executor) (r : TaskRequest) : Activity (Except TaskError Value) := do
  ofResponse (← perform (.task e r))

/-- Call a tool and wait for its answer. -/
def callTool (t : BoundTool) (arguments : Value) : Activity (Except TaskError Value) := do
  ofResponse (← perform (.tool t.registered arguments))

/-- Carry out tasks side by side, with at most `limit` of them at a time and at least one.
The results stand in the order of the tasks. -/
def all (limit : Nat) (tasks : List (Activity NodeRun)) : Activity (List NodeRun) :=
  .start (max 1 limit) tasks.length (fun i => tasks[i]) fun group =>
    .join group none fun runs _ => .done (runs.getD [])

/-- Carry out an activity within a span of time: its result and the time that is left, or
nothing when the activity has to be cut off at the end of the span. What is over at that very
moment is still in time, but tasks that end at it are not. -/
def within (budget : Nat) : Activity α → Activity (Option (α × Nat))
  | .done a => .done (some (a, budget))
  | .wait n p =>
    if n ≤ budget then .wait n (p.within (budget - n)) else .wait budget (.done none)
  | .ask c rest => .ask c fun a => (rest a).within budget
  | .start limit count task rest => .start limit count task fun g => (rest g).within budget
  | .join g span rest =>
    if span.any (· ≤ budget) then
      .join g span fun runs spent => (rest runs spent).within (budget - spent)
    else
      .join g (some budget) fun runs spent =>
        match runs with
        | some runs => (rest (some runs) spent).within (budget - spent)
        | none => .done none

/-- Carry out an activity within a span of time, or without any bound. -/
def withinOption (budget : Option Nat) (p : Activity α) : Activity (Option (α × Option Nat)) :=
  match budget with
  | none => p.bind fun a => .done (some (a, none))
  | some n => (p.within n).bind fun r => .done (r.map fun x => (x.1, some x.2))

end Activity

end WorkflowGraph
