import WorkflowGraph.Activity.Run

/-!
# Worlds at rest

Before a call that is answered from files, the tasks under way go on as far as they can at that
moment. After it they cannot go on any further before time passes, so that a second such call finds
the world at rest and leaves everything but the storage as it is (`World.rest_eq_self`).
-/

set_option autoImplicit false

namespace WorkflowGraph

open Activity

variable {σ α : Type} {host : Host σ} {w : World σ}

namespace World

/-- Whether no task under way can go on at this moment. -/
def AtRest (w : World σ) : Prop := Crew.pick? w.clock w.crew.strands = none

theorem AtRest.congr {v : World σ} (h : w.AtRest) (hclock : v.clock = w.clock)
    (hcrew : v.crew = w.crew) : v.AtRest := by
  unfold AtRest
  rw [hclock, hcrew]
  exact h

theorem AtRest.answer (h : w.AtRest) (c : Call) : (c.answer host w).2.AtRest :=
  h.congr (c.clock_answer host w) (c.crew_answer host w)

theorem clock_goOn (host : Host σ) (w : World σ) (front : List Strand) (s : Strand)
    (back : List Strand) (p : Activity NodeRun) : (w.goOn host front s back p).clock = w.clock := by
  have hclock : (p.advance host (w.put [] [] [])).2.clock = w.clock := by
    rcases advance_moved host (w.put [] [] []) p with hmoved | ⟨_, _, _, _, hjoined⟩
    · exact hmoved.1
    · rw [hjoined]
      rfl
  unfold goOn
  cases hhalt : (p.advance host (w.put [] [] [])).1 with
  | finished run =>
    simp only [hhalt]
    exact hclock
  | paused span rest =>
    simp only [hhalt]
    exact hclock
  | joined group span rest =>
    simp only [hhalt]
    exact hclock

/-- No time passes while a strand takes its turn. -/
theorem clock_turn (host : Host σ) (w : World σ) (front : List Strand) (s : Strand)
    (back : List Strand) : (w.turn host front s back).clock = w.clock := by
  unfold turn
  split
  · exact clock_goOn host w front s back _
  · split
    · exact clock_goOn host _ front s back _
    · rfl
  · rfl
  · split
    · exact clock_goOn host w front s back _
    · split
      · exact clock_goOn host w front s back _
      · rfl

/-- Letting the tasks go on at a moment moves no clock and leaves the world at rest. By induction
on their turns. -/
theorem settle_now (host : Host σ) (goal limit : Option Nat) (w : World σ)
    (hlimit : limit = some w.clock) (hgoal : goal = none) :
    (w.settle host goal limit).clock = w.clock ∧ (w.settle host goal limit).AtRest := by
  fun_induction settle with
  | case1 w front s back _ ih =>
    have hclock := clock_turn host w front s back
    obtain ⟨hafter, hrest⟩ := ih (by rw [hclock, hlimit])
    exact ⟨hafter.trans hclock, hrest⟩
  | case2 w hpick hdone =>
    rw [hgoal] at hdone
    simp at hdone
  | case3 w hpick _ later _ _ =>
    rw [hlimit]
    exact ⟨rfl, hpick⟩
  | case4 w _ _ later hnext hlate _ =>
    -- The next moment lies behind the one at which the tasks go on.
    have hlater := (Crew.weight_lt_of_next? hnext).1
    rw [hlimit] at hlate
    simp only [Option.any_some, decide_eq_true_eq] at hlate
    omega
  | case5 w hpick _ _ =>
    rw [hlimit]
    exact ⟨rfl, hpick⟩

theorem atRest_rest (host : Host σ) (w : World σ) : (w.rest host).AtRest :=
  (settle_now host none _ w rfl rfl).2

/-- A world at rest stays as it is when its tasks are given a moment. -/
theorem rest_eq_self (h : w.AtRest) : w.rest host = w := by
  unfold rest settle
  split
  · next hsome =>
    rw [h] at hsome
    cases hsome
  · rw [if_neg (by simp)]
    split
    · next later hnext =>
      have hlater := (Crew.weight_lt_of_next? hnext).1
      rw [if_pos (by simp; omega)]
      rfl
    · rfl

/-- Whether a store can be read without letting tasks go on before. -/
def Still (store : Store) (w : World σ) : Prop :=
  ∀ thread, (Call.load store thread).isSlow = true → w.AtRest

theorem Still.beforeLoad {store : Store} (h : w.Still store) (thread : String) :
    (if (Call.load store thread).isSlow then w.rest host else w) = w := by
  split
  · next hslow => exact rest_eq_self (h thread hslow)
  · rfl

/-- After a call that is answered as slowly as the store is read, the store can be read. -/
theorem still_run_perform {store : Store} {c : Call}
    (hslow : ∀ thread, (Call.load store thread).isSlow = true → c.isSlow = true) (host : Host σ)
    (w : World σ) : ((perform c).run host w).2.Still store := by
  intro thread hload
  show (c.answer host (if c.isSlow then w.rest host else w)).2.AtRest
  rw [if_pos (hslow thread hload)]
  exact (atRest_rest host w).answer c

end World

end WorkflowGraph
