import WorkflowGraph.Activity.Descent

/-!
# Crews

The tasks that have been started and are not done yet are the strands of a crew. A strand
belongs to a group, and begins when one of the group's places is free, in the order in which
the strands have asked for one. A strand that has begun keeps its place until it is done,
also when nobody waits for it any more.

Strands go on one at a time, each until it has to wait. The next one is the one that could
have gone on for the longest time; of several that can go on from the same moment, the one
whose turn has been noted first.
-/

set_option autoImplicit false

namespace WorkflowGraph

/-- A moment at which something goes on, and the number under which that has been noted. -/
structure Turn where
  time : Nat
  number : Nat
  deriving DecidableEq

namespace Turn

/-- Whether a turn comes before another one. -/
def before (a b : Turn) : Bool := a.time < b.time || (a.time == b.time && a.number < b.number)

/-- The earlier one of two turns that there may be. -/
def earlier? : Option Turn → Option Turn → Option Turn
  | none, b => b
  | a, none => a
  | some a, some b => some (if b.before a then b else a)

/-- A turn that has come. -/
def come? (clock : Nat) (t : Option Turn) : Option Turn := t.filter fun t => t.time ≤ clock

end Turn

/-- What a strand waits for: its turn, a place in its group, or the tasks of a group that it
has joined. One that has joined a group looks for the results when it is woken, and stops to
wait at the alarm. -/
inductive Stage where
  | due (turn : Turn) (begun : Bool)
  | held
  | joined (group since : Nat) (alarm woken : Option Turn)

namespace Stage

/-- When a strand can go on, if it can at a moment. -/
def turn? (clock : Nat) : Stage → Option Turn
  | .due turn _ => Turn.come? clock (some turn)
  | .held => none
  | .joined _ _ alarm woken => Turn.earlier? (Turn.come? clock alarm) woken

/-- The later moment at which a strand goes on by itself. -/
def next? (clock : Nat) : Stage → Option Nat
  | .due turn _ => if clock < turn.time then some turn.time else none
  | .held => none
  | .joined _ _ alarm _ => (alarm.filter fun t => clock < t.time).map Turn.time

/-- A number that falls when a strand comes closer to the next step of its activity. -/
def weight (clock : Nat) : Stage → Nat
  | .due turn _ => if clock < turn.time then 5 else 4
  | .held => 0
  | .joined _ _ alarm woken =>
    1 + (if (alarm.any fun t => clock < t.time) then 1 else 0) + if woken.isSome then 1 else 0

/-- A strand that waits for the tasks of a group is woken, unless it is awake already. -/
def wake (group : Nat) (turn : Turn) : Stage → Stage
  | .joined g since alarm woken =>
    if g = group then .joined g since alarm (woken.or (some turn)) else .joined g since alarm woken
  | s => s

end Stage

/-- A task that has been started: its group and its index there, what it waits for, and what
it does then. -/
structure Strand where
  group : Nat
  index : Nat
  stage : Stage
  rest : Activity NodeRun

/-- A group of tasks: the number of places that are free, the number of tasks, and the
results that are there, under the indices of the tasks. -/
structure Group where
  free : Nat
  size : Nat
  runs : List (Nat × NodeRun)

/-- The results of a group in the order of its tasks, when all of them are there. -/
def Group.results? (g : Group) : Option (List NodeRun) :=
  if g.runs.length = g.size then
    some ((List.range g.size).filterMap fun i => (g.runs.find? fun p => p.1 == i).map Prod.snd)
  else none

/-- The tasks under way, the groups under their numbers, and the number of turns that have
been noted. -/
structure Crew where
  strands : List Strand
  groups : List Group
  count : Nat

namespace Crew

/-- The crew without any task. -/
def empty : Crew := ⟨[], [], 0⟩

/-- Start the tasks of a new group; gives the number of the group. -/
def start (c : Crew) (clock limit count : Nat) (task : Fin count → Activity NodeRun) :
    Nat × Crew :=
  let group := c.groups.length
  let begun := List.ofFn fun i : Fin count =>
    (⟨group, i, .due ⟨clock, c.count + i⟩ false, task i⟩ : Strand)
  (group, ⟨c.strands ++ begun, c.groups ++ [⟨limit, count, []⟩], c.count + count⟩)

/-- The results of a group when all of them are there. There is no result of a group that has
not been started. -/
def results? (c : Crew) (group : Nat) : Option (List NodeRun) :=
  match c.groups[group]? with
  | some g => g.results?
  | none => some []

/-- Whether a place of a group is free. -/
def hasPlace (c : Crew) (group : Nat) : Bool := c.groups[group]?.any fun g => g.free != 0

/-- Change a group. -/
def modify (c : Crew) (group : Nat) (f : Group → Group) : Crew :=
  { c with groups := c.groups.modify group f }

/-- Take a place of a group. -/
def takePlace (c : Crew) (group : Nat) : Crew :=
  c.modify group fun g => { g with free := g.free - 1 }

/-- Whether a strand waits for a place of a group. -/
def isHeld (group : Nat) (s : Strand) : Bool :=
  match s.stage with
  | .held => s.group == group
  | _ => false

/-- The first strand that waits for a place of a group begins. -/
def seat (group : Nat) (turn : Turn) : List Strand → List Strand
  | [] => []
  | s :: rest =>
    if isHeld group s then { s with stage := .due turn true } :: rest
    else s :: seat group turn rest

/-- Give a place of a group back: to the strand that waits for one, or to the group. -/
def leavePlace (c : Crew) (clock group : Nat) : Crew :=
  if c.strands.any (isHeld group) then
    { c with strands := seat group ⟨clock, c.count⟩ c.strands, count := c.count + 1 }
  else c.modify group fun g => { g with free := g.free + 1 }

/-- Note the result of a task that is done. Its place is given back, and who waits for the
group is woken. -/
def finish (c : Crew) (clock group index : Nat) (run : NodeRun) : Crew :=
  let noted := c.modify group fun g => { g with runs := (index, run) :: g.runs }
  let c := noted.leavePlace clock group
  let wake (s : Strand) : Strand := { s with stage := s.stage.wake group ⟨clock, c.count⟩ }
  { c with strands := c.strands.map wake, count := c.count + 1 }

/-- The strand whose turn it is at a moment, with those in front of it and those behind it. -/
def pick? (clock : Nat) : List Strand → Option (List Strand × Strand × List Strand)
  | [] => none
  | s :: rest =>
    match s.stage.turn? clock, pick? clock rest with
    | none, none => none
    | some _, none => some ([], s, rest)
    | none, some (front, t, back) => some (s :: front, t, back)
    | some turn, some (front, t, back) =>
      if (t.stage.turn? clock).any fun other => other.before turn then
        some (s :: front, t, back)
      else some ([], s, rest)

/-- The first later moment at which a strand goes on by itself. -/
def next? (clock : Nat) : List Strand → Option Nat
  | [] => none
  | s :: rest =>
    match s.stage.next? clock, next? clock rest with
    | none, n => n
    | some m, none => some m
    | some m, some n => some (min m n)

/-- The activities of strands. -/
def trees (strands : List Strand) : List Activity.Tree := strands.map fun s => ⟨NodeRun, s.rest⟩

/-- The weight of all strands. -/
def weight (clock : Nat) : List Strand → Nat
  | [] => 0
  | s :: rest => s.stage.weight clock + weight clock rest

@[simp] theorem trees_append (xs ys : List Strand) : trees (xs ++ ys) = trees xs ++ trees ys := by
  simp [trees]

@[simp] theorem trees_cons (s : Strand) (rest : List Strand) :
    trees (s :: rest) = ⟨NodeRun, s.rest⟩ :: trees rest := rfl

@[simp] theorem weight_cons (clock : Nat) (s : Strand) (rest : List Strand) :
    weight clock (s :: rest) = s.stage.weight clock + weight clock rest := rfl

@[simp] theorem weight_append (clock : Nat) (xs ys : List Strand) :
    weight clock (xs ++ ys) = weight clock xs + weight clock ys := by
  induction xs with
  | nil => simp [weight]
  | cons s rest ih => simp [ih, Nat.add_assoc]

@[simp] theorem trees_seat (group : Nat) (turn : Turn) (strands : List Strand) :
    trees (seat group turn strands) = trees strands := by
  induction strands with
  | nil => rfl
  | cons s rest ih =>
    unfold seat
    split
    · rfl
    · simp [ih]

@[simp] theorem trees_finish (c : Crew) (clock group index : Nat) (run : NodeRun) :
    trees (c.finish clock group index run).strands = trees c.strands := by
  have h (c : Crew) : trees (c.leavePlace clock group).strands = trees c.strands := by
    unfold leavePlace
    split <;> simp [modify]
  simp only [finish]
  rw [show ∀ (f : Strand → Strand) (l : List Strand), (∀ s, (f s).rest = s.rest) →
    trees (l.map f) = trees l from fun f l hf => by simp [trees, Function.comp_def, hf]]
  · rw [h]
    rfl
  · intro s
    rfl

/-- The strand whose turn it is stands between the others, and can go on. -/
theorem pick?_eq_some {clock : Nat} {strands front back : List Strand} {s : Strand}
    (h : pick? clock strands = some (front, s, back)) :
    strands = front ++ s :: back ∧ (s.stage.turn? clock).isSome := by
  induction strands generalizing front s back with
  | nil => simp [pick?] at h
  | cons t rest ih =>
    unfold pick? at h
    split at h
    · simp at h
    · next turn ht _ =>
      simp only [Option.some.injEq, Prod.mk.injEq] at h
      obtain ⟨rfl, rfl, rfl⟩ := h
      exact ⟨rfl, by simp [ht]⟩
    · next f u b _ hr =>
      simp only [Option.some.injEq, Prod.mk.injEq] at h
      obtain ⟨rfl, rfl, rfl⟩ := h
      obtain ⟨rfl, hs⟩ := ih hr
      exact ⟨rfl, hs⟩
    · next turn f u b ht hr =>
      split at h
      · simp only [Option.some.injEq, Prod.mk.injEq] at h
        obtain ⟨rfl, rfl, rfl⟩ := h
        obtain ⟨rfl, hs⟩ := ih hr
        exact ⟨rfl, hs⟩
      · simp only [Option.some.injEq, Prod.mk.injEq] at h
        obtain ⟨rfl, rfl, rfl⟩ := h
        exact ⟨rfl, by simp [ht]⟩

/-- No strand gets further from its next step while time passes. -/
theorem stage_weight_le {clock later : Nat} (h : clock ≤ later) (s : Stage) :
    s.weight later ≤ s.weight clock := by
  cases s with
  | due turn begun =>
    simp only [Stage.weight]
    split <;> split <;> omega
  | held => simp [Stage.weight]
  | joined group since alarm woken =>
    cases alarm with
    | none => simp [Stage.weight]
    | some t =>
      have : (if later < t.time then 1 else 0) ≤ if clock < t.time then 1 else 0 := by
        split <;> split <;> omega
      simp only [Stage.weight, Option.any_some, decide_eq_true_eq]
      omega

/-- A strand that goes on by itself at a moment is closer to its next step then. -/
theorem stage_weight_lt {clock later : Nat} {s : Stage} (h : s.next? clock = some later) :
    clock < later ∧ s.weight later < s.weight clock := by
  cases s with
  | due turn begun =>
    simp only [Stage.next?, Option.ite_none_right_eq_some, Option.some.injEq] at h
    obtain ⟨hlt, rfl⟩ := h
    simp [Stage.weight, hlt]
  | held => simp [Stage.next?] at h
  | joined group since alarm woken =>
    cases alarm with
    | none => simp [Stage.next?] at h
    | some t =>
      simp only [Stage.next?, Option.map_eq_some_iff, Option.filter_eq_some_iff,
        Option.some.injEq, decide_eq_true_eq] at h
      obtain ⟨u, ⟨rfl, hlt⟩, rfl⟩ := h
      simp [Stage.weight, hlt]

theorem weight_le {clock later : Nat} (h : clock ≤ later) (strands : List Strand) :
    weight later strands ≤ weight clock strands := by
  induction strands with
  | nil => simp [weight]
  | cons s rest ih =>
    have := stage_weight_le h s.stage
    simp only [weight_cons]
    omega

/-- At the next moment at which a strand goes on by itself, the weight is smaller. -/
theorem weight_lt_of_next? {clock later : Nat} {strands : List Strand}
    (h : next? clock strands = some later) :
    clock < later ∧ weight later strands < weight clock strands := by
  induction strands generalizing later with
  | nil => simp [next?] at h
  | cons s rest ih =>
    unfold next? at h
    simp only [weight_cons]
    split at h
    · obtain ⟨hlt, hw⟩ := ih h
      have := stage_weight_le (Nat.le_of_lt hlt) s.stage
      omega
    · next m hm _ =>
      obtain rfl := Option.some.inj h
      obtain ⟨hlt, hw⟩ := stage_weight_lt hm
      have := weight_le (Nat.le_of_lt hlt) rest
      omega
    · next m n hm hn =>
      obtain rfl := Option.some.inj h
      obtain ⟨hlt, hw⟩ := stage_weight_lt hm
      obtain ⟨hlt', hw'⟩ := ih hn
      rcases Nat.le_total m n with hmn | hmn
      · rw [Nat.min_eq_left hmn]
        have := weight_le (Nat.le_of_lt hlt) rest
        omega
      · rw [Nat.min_eq_right hmn]
        have := stage_weight_le (Nat.le_of_lt hlt') s.stage
        omega

end Crew

end WorkflowGraph
