import WorkflowGraph.Activity.Settle

/-!
# Carrying out activities

An activity is carried out against a world, whose tasks go on while it waits. The tasks that
are not done when the activity ends stay in the world, and go on when the next activity lets
time pass.
-/

set_option autoImplicit false

namespace WorkflowGraph

variable {σ α β : Type}

/-- Whether the answer to a call comes from files, which leaves time for the tasks under way. -/
def Call.isSlow : Call → Bool
  | .load (.folder _) _ => true
  | .save (.folder _) _ => true
  | .delete (.folder _) _ => true
  | .prune (.folder _) _ _ => true
  | _ => false

namespace World

/-- Let time pass. -/
def pass (h : Host σ) (span : Nat) (w : World σ) : World σ :=
  if span = 0 then w else w.settle h none (some (w.clock + span))

/-- Wait for the tasks of a group, for a span of time or for as long as it takes. -/
def await (h : Host σ) (group : Nat) (span : Option Nat) (w : World σ) : World σ :=
  if (w.crew.results? group).isSome ∨ span = some 0 then w
  else w.settle h (some group) (span.map (w.clock + ·))

/-- Let the tasks that can go on now do so. -/
def rest (h : Host σ) (w : World σ) : World σ := w.settle h none (some w.clock)

/-- Without tasks only the clock moves. -/
theorem settle_of_strands_eq_nil (h : Host σ) (goal limit : Option Nat) (w : World σ)
    (hw : w.crew.strands = [])
    (hgoal : goal.any (fun group => (w.crew.results? group).isSome) = false) :
    w.settle h goal limit = { w with clock := limit.getD w.clock } := by
  unfold settle
  split
  · next h =>
    rw [hw] at h
    simp [Crew.pick?] at h
  · rw [if_neg (by simp [hgoal])]
    split
    · next h =>
      rw [hw] at h
      simp [Crew.next?] at h
    · rfl

theorem pass_of_strands_eq_nil (h : Host σ) (span : Nat) (w : World σ)
    (hw : w.crew.strands = []) : w.pass h span = { w with clock := w.clock + span } := by
  unfold pass
  split
  · next hs => simp [hs]
  · rw [settle_of_strands_eq_nil h none _ w hw rfl]
    rfl

theorem rest_of_strands_eq_nil (h : Host σ) (w : World σ) (hw : w.crew.strands = []) :
    w.rest h = w := by
  rw [rest, settle_of_strands_eq_nil h none _ w hw rfl]
  rfl

end World

namespace Activity

/-- Carry out an activity in a world. -/
def run (h : Host σ) (w : World σ) : Activity α → α × World σ
  | .done a => (a, w)
  | .wait n p => p.run h (w.pass h n)
  | .ask c rest =>
    let (a, w) := c.answer h (if c.isSlow then w.rest h else w)
    (rest a).run h w
  | .start limit count task rest =>
    let (group, crew) := w.crew.start w.clock limit count task
    (rest group).run h { w with crew }
  | .join group span rest =>
    let v := w.await h group span
    (rest (v.crew.results? group) (v.clock - w.clock)).run h v

/-- An activity that goes on with another one is carried out in two parts. -/
theorem run_bind (h : Host σ) (w : World σ) (p : Activity α) (next : α → Activity β) :
    (p.bind next).run h w = (next (p.run h w).1).run h (p.run h w).2 := by
  induction p generalizing w with
  | done a => rfl
  | wait n p ih => exact ih _ next
  | ask c rest ih => exact ih _ _ next
  | start limit count task rest _ ih => exact ih _ _ next
  | join group span rest ih => exact ih _ _ _ next

end Activity

end WorkflowGraph
