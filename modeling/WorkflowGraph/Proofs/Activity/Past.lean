import WorkflowGraph.Activity.Run

/-!
# The past of a world

A world in which no task is under way has a past: the time that has passed, the groups that have
been started, and the turns that have been noted (`Past`). What happens next does not depend on it.
Turns, stages, strands and crews can be put behind a past, where all moments are later and all
groups have higher numbers (`Crew.after`), and whatever is done with a crew is done in the same way
behind a past: who goes on next, who gets a place, and what a group has come to.
-/

set_option autoImplicit false

namespace WorkflowGraph

/-- What has been in a world before. -/
structure Past where
  clock : Nat
  groups : List Group
  count : Nat

variable (past : Past)

/-! ## Turns and stages -/

/-- A turn behind a past. -/
def Turn.after (t : Turn) : Turn := ⟨past.clock + t.time, past.count + t.number⟩

/-- A group behind a past. -/
def Past.group (group : Nat) : Nat := past.groups.length + group

/-- What a strand waits for, behind a past. -/
def Stage.after : Stage → Stage
  | .due turn begun => .due (turn.after past) begun
  | .held => .held
  | .joined group since alarm woken =>
    .joined (past.group group) (past.clock + since) (alarm.map (Turn.after past))
      (woken.map (Turn.after past))

@[simp] theorem Past.group_inj {i j : Nat} : past.group i = past.group j ↔ i = j :=
  Nat.add_left_cancel_iff

@[simp] theorem Past.clock_lt_iff {m n : Nat} : past.clock + m < past.clock + n ↔ m < n :=
  Nat.add_lt_add_iff_left

namespace Turn

theorem before_after (a b : Turn) : (a.after past).before (b.after past) = a.before b := by
  unfold before after
  rw [Bool.eq_iff_iff]
  simp

theorem come?_after (clock : Nat) (t : Option Turn) :
    come? (past.clock + clock) (t.map (after past)) = (come? clock t).map (after past) := by
  cases t with
  | none => rfl
  | some t =>
    unfold come? after
    by_cases ht : t.time ≤ clock
    · simp [Option.filter, ht]
    · simp [Option.filter, ht]

theorem earlier?_after (a b : Option Turn) :
    earlier? (a.map (after past)) (b.map (after past)) = (earlier? a b).map (after past) := by
  cases a with
  | none => rfl
  | some a =>
    cases b with
    | none => rfl
    | some b =>
      simp only [earlier?, Option.map_some, before_after]
      split <;> rfl

end Turn

namespace Stage

theorem turn?_after (clock : Nat) (s : Stage) :
    (s.after past).turn? (past.clock + clock) = (s.turn? clock).map (Turn.after past) := by
  cases s with
  | due turn begun => exact Turn.come?_after past clock (some turn)
  | held => rfl
  | joined group since alarm woken =>
    simp only [after, turn?, Turn.come?_after, Turn.earlier?_after]

theorem next?_after (clock : Nat) (s : Stage) :
    (s.after past).next? (past.clock + clock) = (s.next? clock).map (past.clock + ·) := by
  cases s with
  | due turn begun =>
    simp only [after, next?, Turn.after, Past.clock_lt_iff]
    split <;> rfl
  | held => rfl
  | joined group since alarm woken =>
    cases alarm with
    | none => rfl
    | some alarm =>
      by_cases hlt : clock < alarm.time
      · simp [after, next?, Turn.after, Option.filter, hlt]
      · simp [after, next?, Turn.after, Option.filter, hlt]

theorem wake_after (group : Nat) (turn : Turn) (s : Stage) :
    (s.after past).wake (past.group group) (turn.after past) = (s.wake group turn).after past := by
  cases s with
  | due | held => rfl
  | joined g since alarm woken =>
    simp only [after, wake, Past.group_inj]
    split
    · cases woken <;> rfl
    · rfl

end Stage

/-! ## Strands and crews -/

/-- An activity that waits for a group from the start, behind a past. Any other one is the same. -/
def Activity.after {α : Type} : Activity α → Activity α
  | .join group span rest => .join (past.group group) span rest
  | p => p

theorem Activity.answered_after {α : Type} (runs : Option (List NodeRun)) (spent : Nat)
    (p : Activity α) : (p.after past).answered runs spent = p.answered runs spent := by
  cases p <;> rfl

/-- A strand behind a past. -/
def Strand.after (s : Strand) : Strand :=
  ⟨past.group s.group, s.index, s.stage.after past, s.rest.after past⟩

/-- A crew behind a past. -/
def Crew.after (c : Crew) : Crew :=
  ⟨c.strands.map (Strand.after past), past.groups ++ c.groups, past.count + c.count⟩

namespace Crew

theorem pick?_after (clock : Nat) (strands : List Strand) :
    pick? (past.clock + clock) (strands.map (Strand.after past)) =
      (pick? clock strands).map fun r =>
        (r.1.map (Strand.after past), r.2.1.after past, r.2.2.map (Strand.after past)) := by
  induction strands with
  | nil => rfl
  | cons s rest ih =>
    have hturn (s : Strand) : (s.after past).stage.turn? (past.clock + clock) =
        (s.stage.turn? clock).map (Turn.after past) := s.stage.turn?_after past clock
    simp only [List.map_cons, pick?, hturn, ih]
    cases s.stage.turn? clock with
    | none =>
      cases pick? clock rest with
      | none => rfl
      | some r => rfl
    | some turn =>
      cases pick? clock rest with
      | none => rfl
      | some r =>
        obtain ⟨front, t, back⟩ := r
        simp only [Option.map_some, hturn]
        cases t.stage.turn? clock with
        | none => rfl
        | some other =>
          simp only [Option.map_some, Option.any_some, Turn.before_after]
          split <;> rfl

theorem next?_after (clock : Nat) (strands : List Strand) :
    next? (past.clock + clock) (strands.map (Strand.after past)) =
      (next? clock strands).map (past.clock + ·) := by
  induction strands with
  | nil => rfl
  | cons s rest ih =>
    have hnext : (s.after past).stage.next? (past.clock + clock) =
        (s.stage.next? clock).map (past.clock + ·) := s.stage.next?_after past clock
    simp only [List.map_cons, next?, hnext, ih]
    cases s.stage.next? clock with
    | none => rfl
    | some m =>
      cases next? clock rest with
      | none => rfl
      | some n => exact congrArg some (Nat.add_min_add_left _ _ _)

variable (c : Crew)

theorem getElem?_after (group : Nat) :
    (c.after past).groups[past.group group]? = c.groups[group]? := by
  show (past.groups ++ c.groups)[past.groups.length + group]? = c.groups[group]?
  rw [List.getElem?_append_right (Nat.le_add_right _ _), Nat.add_sub_cancel_left]

@[simp] theorem results?_after (group : Nat) :
    (c.after past).results? (past.group group) = c.results? group := by
  unfold results?
  rw [getElem?_after]

@[simp] theorem hasPlace_after (group : Nat) :
    (c.after past).hasPlace (past.group group) = c.hasPlace group := by
  unfold hasPlace
  rw [getElem?_after]

theorem modify_after (group : Nat) (f : Group → Group) :
    (c.after past).modify (past.group group) f = (c.modify group f).after past := by
  have hgroups (front : List Group) : (front ++ c.groups).modify (front.length + group) f =
      front ++ c.groups.modify group f := by
    induction front with
    | nil => rw [List.length_nil, Nat.zero_add, List.nil_append, List.nil_append]
    | cons g rest ih =>
      rw [List.length_cons, Nat.add_right_comm, List.cons_append, List.modify_succ_cons, ih,
        List.cons_append]
  exact congrArg (Crew.mk _ · _) (hgroups past.groups)

theorem takePlace_after (group : Nat) :
    (c.after past).takePlace (past.group group) = (c.takePlace group).after past :=
  c.modify_after past group _

theorem isHeld_after (group : Nat) (s : Strand) :
    isHeld (past.group group) (s.after past) = isHeld group s := by
  unfold isHeld Strand.after
  cases s.stage with
  | due | joined => rfl
  | held =>
    rw [Bool.eq_iff_iff]
    simp [Stage.after]

theorem seat_after (group : Nat) (turn : Turn) (strands : List Strand) :
    seat (past.group group) (turn.after past) (strands.map (Strand.after past)) =
      (seat group turn strands).map (Strand.after past) := by
  induction strands with
  | nil => rfl
  | cons s rest ih =>
    simp only [List.map_cons, seat, isHeld_after, ih]
    split <;> rfl

theorem leavePlace_after (clock group : Nat) :
    (c.after past).leavePlace (past.clock + clock) (past.group group) =
      (c.leavePlace clock group).after past := by
  have hheld : (c.after past).strands.any (isHeld (past.group group)) =
      c.strands.any (isHeld group) := by
    show (c.strands.map (Strand.after past)).any _ = _
    rw [List.any_map]
    exact congrArg (c.strands.any ·) (funext fun s => isHeld_after past group s)
  unfold leavePlace
  rw [hheld]
  split
  · show (⟨seat (past.group group) (Turn.after past ⟨clock, c.count⟩)
      (c.strands.map (Strand.after past)), _, _⟩ : Crew) = _
    rw [seat_after]
    rfl
  · exact c.modify_after past group _

theorem finish_after (clock group index : Nat) (run : NodeRun) :
    (c.after past).finish (past.clock + clock) (past.group group) index run =
      (c.finish clock group index run).after past := by
  unfold finish
  dsimp only
  rw [modify_after, leavePlace_after]
  generalize (modify c group _).leavePlace clock group = d
  have hwake (s : Strand) : ({ s.after past with
      stage := (s.after past).stage.wake (past.group group)
        (Turn.after past ⟨clock, d.count⟩) } : Strand) =
      ({ s with stage := s.stage.wake group ⟨clock, d.count⟩ } : Strand).after past := by
    unfold Strand.after
    dsimp only
    rw [Stage.wake_after]
  unfold after
  dsimp only
  rw [List.map_map, List.map_map]
  exact congrArg (Crew.mk · _ _) (List.map_congr_left fun s _ => hwake s)

theorem start_after (clock limit : Nat) {count : Nat} {task : Fin count → Activity NodeRun}
    (htask : ∀ i, (task i).after past = task i) :
    (c.after past).start (past.clock + clock) limit count task =
      (past.group (c.start clock limit count task).1,
        (c.start clock limit count task).2.after past) := by
  have hbegun : (List.ofFn fun i : Fin count => (⟨past.groups.length + c.groups.length, i,
        .due ⟨past.clock + clock, past.count + c.count + i⟩ false, task i⟩ : Strand)) =
      (List.ofFn fun i : Fin count => (⟨c.groups.length, i, .due ⟨clock, c.count + i⟩ false,
        task i⟩ : Strand)).map (Strand.after past) := by
    rw [List.map_ofFn]
    refine congrArg List.ofFn (funext fun i => ?_)
    simp only [Function.comp_apply, Strand.after, Stage.after, Turn.after, Past.group, htask,
      Nat.add_assoc]
  unfold start after
  dsimp only
  rw [List.length_append, List.map_append, List.append_assoc, hbegun, Nat.add_assoc]
  rfl

end Crew

end WorkflowGraph
