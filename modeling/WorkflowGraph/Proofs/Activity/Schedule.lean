import Mathlib.Data.Fintype.BigOperators
import Mathlib.Logic.Function.Basic
import WorkflowGraph.Activity.Run

/-!
# Schedules

When an activity is carried out in a world, the clock says which of the tasks under way goes on
next. Here nothing does: whoever can go on may do so at any time, one call after the other, and
waits for as long as it is not its turn (`Underway.Step`). A schedule is what has been done so far,
in whatever order (`Underway.Schedule`). Since time does not count for those who wait for tasks, no
timeout cuts them off.

An activity that has started tasks waits for all of them, so what is under way is a tree: an
activity that goes on by itself, or one that has started tasks, with what is under way in each of
them. A task goes on when it has begun, which takes one of the places of its group until it is over.
Calls are answered by a host without a memory, which means by functions of what is asked.

What a world does with an activity that has no timeouts is one of its schedules
(`Activity.Patient.run`).
-/

set_option autoImplicit false

namespace WorkflowGraph

/-- A sum in which one summand has become smaller. -/
theorem sum_of_change {M : Type} [AddCommMonoid M] {count : Nat} {f g : Fin count → M}
    (i : Fin count) {x : M} (hi : f i = x + g i) (hothers : ∀ j, j ≠ i → f j = g j) :
    ∑ j, f j = x + ∑ j, g j := by
  rw [← Finset.add_sum_erase _ f (Finset.mem_univ i),
    ← Finset.add_sum_erase _ g (Finset.mem_univ i), hi, add_assoc]
  congr 2
  exact Finset.sum_congr rfl fun j hj => hothers j (Finset.ne_of_mem_erase hj)

/-- The answer to a call and the storage after it, with a host that remembers nothing. -/
def Call.reply (host : Host Unit) (s : Storage) (c : Call) : c.Answer × Storage :=
  let r := c.answer host (.initial () s)
  (r.1, r.2.storage)

/-- What is under way: an activity that goes on by itself, or one that waits for tasks that it has
started, of which each has begun or not. -/
inductive Underway : Type → Type 1 where
  | going {α : Type} (rest : Activity α) : Underway α
  | joined {α : Type} (limit count : Nat) (begun : Fin count → Bool)
    (tasks : Fin count → Underway NodeRun) (rest : List NodeRun → Activity α) : Underway α

namespace Underway

/-- Whether nothing is left to do. -/
def isOver {α : Type} : Underway α → Bool
  | .going (.done _) => true
  | _ => false

/-- The number of tasks that have begun and are not over. -/
def occupied {count : Nat} (begun : Fin count → Bool) (tasks : Fin count → Underway NodeRun) :
    Nat :=
  (Finset.univ.filter fun i => begun i && !(tasks i).isOver).card

/-- One step of what is under way, with the calls that are made in it. Tasks that are started are
waited for at once; the one who has started them goes on when all of them are over, with their
results in the order of the tasks. -/
inductive Step (host : Host Unit) :
    {α : Type} → Storage → Underway α → List Call → Storage → Underway α → Prop where
  | wait {α : Type} {s : Storage} {span : Nat} {rest : Activity α} :
    Step host s (going (.wait span rest)) [] s (going rest)
  | ask {α : Type} {s : Storage} {c : Call} {rest : c.Answer → Activity α} :
    Step host s (going (.ask c rest)) [c] (c.reply host s).2 (going (rest (c.reply host s).1))
  | start {α : Type} {s : Storage} {limit count : Nat} {task : Fin count → Activity NodeRun}
    {span : Option Nat} {next : Option (List NodeRun) → Nat → Activity α} :
    Step host s (going (.start limit count task fun group => .join group span next)) [] s
      (joined limit count (fun _ => false) (fun i => going (task i)) fun runs => next (some runs) 0)
  | begin {α : Type} {s : Storage} {limit count : Nat} {begun : Fin count → Bool}
    {tasks : Fin count → Underway NodeRun} {rest : List NodeRun → Activity α} (i : Fin count)
    (hheld : begun i = false) (hplace : occupied begun tasks < limit) :
    Step host s (joined limit count begun tasks rest) [] s
      (joined limit count (Function.update begun i true) tasks rest)
  | onward {α : Type} {s t : Storage} {calls : List Call} {limit count : Nat}
    {begun : Fin count → Bool} {tasks : Fin count → Underway NodeRun} {u : Underway NodeRun}
    {rest : List NodeRun → Activity α} (i : Fin count) (hbegun : begun i = true)
    (hstep : Step host s (tasks i) calls t u) :
    Step host s (joined limit count begun tasks rest) calls t
      (joined limit count begun (Function.update tasks i u) rest)
  | join {α : Type} {s : Storage} {limit count : Nat} {begun : Fin count → Bool}
    {tasks : Fin count → Underway NodeRun} {rest : List NodeRun → Activity α}
    (runs : Fin count → NodeRun) (hover : ∀ i, begun i = true ∧ tasks i = going (.done (runs i))) :
    Step host s (joined limit count begun tasks rest) [] s (going (rest (List.ofFn runs)))

/-- What happens in a number of steps, whoever goes on in each of them. -/
inductive Schedule (host : Host Unit) {α : Type} :
    Nat → Storage → Underway α → List Call → Storage → Underway α → Prop where
  | none {s : Storage} {u : Underway α} : Schedule host 0 s u [] s u
  | step {steps : Nat} {s t r : Storage} {u v x : Underway α} {first later : List Call}
    (hstep : Step host s u first t v) (hlater : Schedule host steps t v later r x) :
    Schedule host (steps + 1) s u (first ++ later) r x

end Underway

end WorkflowGraph
