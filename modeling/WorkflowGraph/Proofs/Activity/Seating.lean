import Mathlib.Algebra.Order.BigOperators.Group.Finset
import WorkflowGraph.Proofs.Activity.Schedule

/-!
# The seating of a crew

A crew keeps all tasks under way in one list. What they do for each other is a tree: an activity
waits for the tasks of a group, and each of these for tasks of its own. This tree is read off the
seating, which says for every group which of its tasks has taken a place and what it does there
(`Seating.Shows`). The groups below different tasks are never the same, so that where one task goes
on the rest of the tree stays as it is (`Seating.Shows.lift`).

Three things happen in a seating: a task begins (`Seating.Shows.begin`), it goes on
(`Seating.Shows.onward`), or it is over (`Seating.Shows.leave`). Each of them is what happens in
some steps of a schedule. A seating in which nobody could go on any more does not occur
(`Seating.Shows.results_of_stuck`).
-/

set_option autoImplicit false

namespace WorkflowGraph

variable {α β : Type}

/-! ## Schedules -/

namespace Underway.Schedule

variable {host : Host Unit} {s t r : Storage} {u v x : Underway α} {first later : List Call}

theorem of_step (h : Step host s u first t v) : Schedule host 1 s u first t v :=
  List.append_nil first ▸ .step h .none

theorem trans {m n : Nat} (h : Schedule host m s u first t v)
    (h' : Schedule host n t v later r x) : Schedule host (m + n) s u (first ++ later) r x := by
  induction h with
  | none => rwa [Nat.zero_add]
  | step hstep _ ih =>
    rw [List.append_assoc, Nat.add_right_comm]
    exact .step hstep (ih h')

/-- What one task does in a number of steps is done by all of them together. -/
theorem onward {steps limit count : Nat} {begun : Fin count → Bool}
    {tasks : Fin count → Underway NodeRun} {rest : List NodeRun → Activity α} {i : Fin count}
    (hbegun : begun i = true) {y : Underway NodeRun}
    (h : Schedule host steps s (tasks i) first t y) :
    Schedule host steps s (.joined limit count begun tasks rest) first t
      (.joined limit count begun (Function.update tasks i y) rest) := by
  generalize hx : tasks i = x at h
  induction h generalizing tasks with
  | none =>
    rw [← hx, Function.update_eq_self]
    exact .none
  | step hstep _ ih =>
    subst hx
    have hlater := @ih (Function.update tasks i _) (Function.update_self i _ _)
    rw [Function.update_idem] at hlater
    exact .step (.onward i hbegun hstep) hlater

end Underway.Schedule

/-! ## Patient activities -/

/-- Whether an activity waits for the tasks that it starts as soon as it has started them, and for
as long as it takes, and so do these tasks. At least one of them has a place. -/
inductive Activity.Patient : {α : Type} → Activity α → Prop where
  | done {α : Type} {a : α} : Patient (.done a)
  | wait {α : Type} {span : Nat} {rest : Activity α} (h : Patient rest) : Patient (.wait span rest)
  | ask {α : Type} {c : Call} {rest : c.Answer → Activity α} (h : ∀ a, Patient (rest a)) :
    Patient (.ask c rest)
  | fork {α : Type} {limit count : Nat} {task : Fin count → Activity NodeRun}
    {next : List NodeRun → Activity α} (hlimit : 1 ≤ limit) (htask : ∀ i, Patient (task i))
    (hnext : ∀ runs, Patient (next runs)) :
    Patient (.start limit count task fun group => .join group none fun runs _ =>
      next (runs.getD []))

/-! ## Seatings -/

/-- What is to be seen of a task under way: it has not begun, it goes on by itself, or it waits for
the tasks of a group. -/
inductive Seat : Type 1 where
  | outside (rest : Activity NodeRun)
  | going (rest : Activity NodeRun)
  | joined (group : Nat) (rest : Activity NodeRun)

namespace Seat

/-- What the task does next. -/
def rest : Seat → Activity NodeRun
  | .outside rest => rest
  | .going rest => rest
  | .joined _ rest => rest

/-- The group that the task waits for. -/
def group? : Seat → Option Nat
  | .joined group _ => some group
  | _ => none

/-- Whether the task has begun. -/
def isTaken : Seat → Bool
  | .outside _ => false
  | _ => true

end Seat

/-- What is to be seen of a group: its places and the results that are there, and its tasks under
way under their indices. -/
@[ext] structure Table : Type 1 where
  group : Option Group
  seats : Nat → Option Seat

namespace Table

/-- The number of tasks whose places are of one kind. -/
def number (t : Table) (kind : Option Seat → Bool) (count : Nat) : Nat :=
  ∑ i : Fin count, if kind (t.seats i) then 1 else 0

/-- The number of tasks that have begun and are under way. -/
def taken (t : Table) (count : Nat) : Nat := t.number (fun place => place.any Seat.isTaken) count

/-- The number of tasks that are not under way any more. -/
def gone (t : Table) (count : Nat) : Nat := t.number Option.isNone count

/-- Whether a table is that of a group with a number of places and of tasks. -/
structure Serves (t : Table) (limit count : Nat) (g : Group) : Prop where
  here : t.group = some g
  size : g.size = count
  least : 1 ≤ limit
  places : g.free + t.taken count = limit
  runs : g.runs.length = t.gone count
  index : ∀ i seat, t.seats i = some seat → i < count

/-- Put a task at another seat, or take it from the table. -/
def seat (t : Table) (i : Nat) (place : Option Seat) : Table :=
  { t with seats := Function.update t.seats i place }

/-- Change the group. -/
def modify (t : Table) (f : Group → Group) : Table := { t with group := t.group.map f }

variable {t : Table} {limit count : Nat} {g : Group}

@[simp] theorem seats_modify (t : Table) (f : Group → Group) : (t.modify f).seats = t.seats := rfl

@[simp] theorem modify_id (t : Table) : t.modify id = t := by
  rw [modify, Option.map_id, id]

@[simp] theorem seats_seat_self (t : Table) (i : Nat) (place : Option Seat) :
    (t.seat i place).seats i = place := by
  simp only [seat, Function.update_self]

theorem seats_seat_of_ne (t : Table) {i j : Nat} (h : j ≠ i) (place : Option Seat) :
    (t.seat i place).seats j = t.seats j := by
  simp only [seat, Function.update_of_ne h]

@[simp] theorem number_modify (t : Table) (f : Group → Group) (kind : Option Seat → Bool) :
    (t.modify f).number kind count = t.number kind count := rfl

/-- Where one task changes its place, the number changes by this one. -/
theorem number_seat (t : Table) (kind : Option Seat → Bool) (i : Fin count) (place : Option Seat) :
    (t.seat i place).number kind count + (if kind (t.seats i) then 1 else 0) =
      t.number kind count + if kind place then 1 else 0 := by
  unfold number
  rw [← Finset.add_sum_erase _ _ (Finset.mem_univ i), ← Finset.add_sum_erase (a := i) _ _
    (Finset.mem_univ i), add_comm, add_comm _ (if kind place then 1 else 0)]
  have hothers : ∀ j ∈ Finset.univ.erase i,
      (if kind ((t.seat i place).seats j) then 1 else 0) = if kind (t.seats j) then 1 else 0 := by
    intro j hj
    have hne : (j : Nat) ≠ i := fun hval => Finset.ne_of_mem_erase hj (Fin.ext hval)
    rw [t.seats_seat_of_ne hne]
  rw [Finset.sum_congr rfl hothers, seats_seat_self]
  omega

/-- All tasks are of a kind if their number says so. -/
theorem number_eq_iff (t : Table) (kind : Option Seat → Bool) (count : Nat) :
    t.number kind count = count ↔ ∀ i : Fin count, kind (t.seats i) = true := by
  unfold number
  rw [← Finset.card_filter]
  constructor
  · intro h i
    have hcard : (Finset.univ.filter fun i : Fin count => kind (t.seats i) = true).card =
        (Finset.univ : Finset (Fin count)).card := h.trans (Finset.card_fin count).symm
    exact Finset.card_filter_eq_iff.1 hcard i (Finset.mem_univ i)
  · intro h
    rw [Finset.card_filter_eq_iff.2 fun i _ => h i, Finset.card_fin]

/-- A table stays in order where a place is taken or given back together with its seat, and a result
is noted for who leaves it. -/
theorem Serves.seat (h : t.Serves limit count g) (i : Fin count) {place : Option Seat}
    {f : Group → Group} (hsize : (f g).size = g.size)
    (hplaces : (f g).free + (if place.any Seat.isTaken then 1 else 0) =
      g.free + if (t.seats i).any Seat.isTaken then 1 else 0)
    (hruns : (f g).runs.length + (if (t.seats i).isNone then 1 else 0) =
      g.runs.length + if place.isNone then 1 else 0) :
    ((t.seat i place).modify f).Serves limit count (f g) := by
  have htaken := t.number_seat (fun place => place.any Seat.isTaken) i place
  have hgone := t.number_seat Option.isNone i place
  refine ⟨?_, hsize.trans h.size, h.least, ?_, ?_, fun j seat hseat => ?_⟩
  · simp only [modify, Table.seat, h.here, Option.map_some]
  · have := h.places
    unfold taken at this ⊢
    rw [number_modify]
    omega
  · have := h.runs
    unfold gone at this ⊢
    rw [number_modify]
    omega
  · by_cases hj : j = i
    · exact hj ▸ i.isLt
    · rw [seats_modify, t.seats_seat_of_ne hj] at hseat
      exact h.index j seat hseat

end Table

/-- What is to be seen of every group. -/
abbrev Seating : Type 1 := Nat → Table

namespace Seating

/-- Whether a seating shows, in the groups given, an activity that waits for one of them, or for
none, with what is under way in it. -/
inductive Shows (v : Seating) :
    {α : Type} → (Nat → Prop) → Option Nat → Activity α → Underway α → Prop where
  | going {α : Type} {G : Nat → Prop} {p : Activity α} (hG : ∀ k, ¬ G k) (hp : p.Patient) :
    Shows v G none p (.going p)
  | joined {α : Type} {G : Nat → Prop} {group limit count : Nat} {g : Group}
    {next : List NodeRun → Activity α} {tasks : Fin count → Underway NodeRun}
    (Gs : Fin count → Nat → Prop) (hG : ∀ k, G k ↔ k = group ∨ ∃ i, Gs i k)
    (hown : ∀ i, ¬ Gs i group) (hapart : ∀ i j k, Gs i k → Gs j k → i = j)
    (htable : (v group).Serves limit count g)
    (htask : ∀ (i : Fin count) seat, (v group).seats i = some seat →
      Shows v (Gs i) seat.group? seat.rest (tasks i))
    (hover : ∀ i : Fin count, (v group).seats i = none → (∀ k, ¬ Gs i k) ∧
      ∃ run, g.runs.find? (fun p => p.1 == i.val) = some (i.val, run) ∧
        tasks i = .going (.done run))
    (hnext : ∀ runs, (next runs).Patient) :
    Shows v G (some group) (.join group none fun runs _ => next (runs.getD []))
      (.joined limit count (fun i => ((v group).seats i).all Seat.isTaken) tasks next)

variable {v v' : Seating} {host : Host Unit} {G H : Nat → Prop} {join? : Option Nat}
  {p : Activity α} {u : Underway α} {s t : Storage} {n m : Nat}

/-- What is shown in some groups depends on these alone. By induction on what is shown. -/
theorem Shows.frame (h : Shows v G join? p u) (hsame : ∀ k, G k → v' k = v k) :
    Shows v' G join? p u := by
  induction h with
  | going hG hp => exact .going hG hp
  | @joined _ _ group _ _ _ _ tasks Gs hG hown hapart htable _ hover hnext ih =>
    have hgroup : v' group = v group := hsame group ((hG group).2 (.inl rfl))
    have hbelow (i) (k : Nat) (hk : Gs i k) : v' k = v k := hsame k ((hG k).2 (.inr ⟨i, hk⟩))
    rw [← hgroup] at htable hover ⊢
    refine .joined Gs hG hown hapart htable (fun i seat hseat => ?_) hover hnext
    rw [hgroup] at hseat
    exact ih i seat hseat (hbelow i)

/-- Who waits for a group has begun. -/
theorem Shows.isTaken {seat : Seat} {q : Activity NodeRun} {w : Underway NodeRun} {k : Nat}
    (h : Shows v G seat.group? q w) (hk : G k) : seat.isTaken = true := by
  cases seat with
  | outside =>
    cases h with
    | going hG _ => exact (hG k hk).elim
  | going => rfl
  | joined => rfl

/-- Who goes on by itself is patient. By induction on how deep its group is. -/
theorem Shows.patient (h : Shows v G join? p u) {k i : Nat} {rest : Activity NodeRun} (hk : G k)
    (hseat : (v k).seats i = some (.going rest)) : rest.Patient := by
  induction h with
  | going hG _ => exact (hG k hk).elim
  | @joined _ _ root limit count g _ tasks Gs hG _ _ htable htask hover _ ih =>
    rcases (hG k).1 hk with rfl | ⟨j, hj⟩
    · have hshows := htask ⟨i, htable.index i _ hseat⟩ _ hseat
      generalize tasks ⟨i, _⟩ = w at hshows
      cases hshows with
      | going _ hp => exact hp
    · cases hroot : (v root).seats j with
      | none => exact ((hover j hroot).1 k hj).elim
      | some seat => exact ih j seat hroot hj

/-! ## One group -/

/-- Whether a seating shows the tasks of a group, each with the groups that are its own. -/
structure Joint (v : Seating) (G : Nat → Prop) (group limit count : Nat) (g : Group)
    (Gs : Fin count → Nat → Prop) (tasks : Fin count → Underway NodeRun) : Prop where
  groups : ∀ k, G k ↔ k = group ∨ ∃ i, Gs i k
  own : ∀ i, ¬ Gs i group
  apart : ∀ i j k, Gs i k → Gs j k → i = j
  table : (v group).Serves limit count g
  task : ∀ (i : Fin count) seat, (v group).seats i = some seat →
    Shows v (Gs i) seat.group? seat.rest (tasks i)
  left : ∀ i : Fin count, (v group).seats i = none → (∀ k, ¬ Gs i k) ∧
    ∃ run, g.runs.find? (fun p => p.1 == i.val) = some (i.val, run) ∧ tasks i = .going (.done run)

/-- Whether some steps of a schedule lead to what a seating shows. Groups with numbers from `n` up
to `m` have been added, and no others; nobody has been lost from the groups. -/
inductive Leads (host : Host Unit) (v : Seating) (n m : Nat) (G : Nat → Prop) (join? : Option Nat)
    (p : Activity α) (s : Storage) (t : Storage) (u : Underway α) : Prop where
  | intro (H : Nat → Prop) (w : Underway α) (steps : Nat) (calls : List Call)
    (schedule : Underway.Schedule host steps s u calls t w) (shows : Shows v H join? p w)
    (added : ∀ k, H k → G k ∨ n ≤ k ∧ k < m)
    (kept : ∀ k index seat, (v k).seats index = some seat → G k ∨ n ≤ k → H k)

/-- The seats of a group say who has begun. -/
def begun (v : Seating) (group : Nat) {count : Nat} (i : Fin count) : Bool :=
  ((v group).seats i).all Seat.isTaken

variable {group limit count : Nat} {g g' : Group} {Gs : Fin count → Nat → Prop}
  {tasks : Fin count → Underway NodeRun} {next : List NodeRun → Activity α}

theorem Shows.joint (h : Shows v G (some group) p u) :
    ∃ (limit count : Nat) (g : Group) (next : List NodeRun → Activity α)
      (Gs : Fin count → Nat → Prop) (tasks : Fin count → Underway NodeRun),
      Joint v G group limit count g Gs tasks ∧ (∀ runs, (next runs).Patient) ∧
        p = .join group none (fun runs _ => next (runs.getD [])) ∧
        u = .joined limit count (v.begun group) tasks next := by
  cases h with
  | joined Gs hG hown hapart htable htask hover hnext =>
    exact ⟨_, _, _, _, _, _, ⟨hG, hown, hapart, htable, htask, hover⟩, hnext, rfl, rfl⟩

namespace Joint

theorem shows (h : Joint v G group limit count g Gs tasks) (hnext : ∀ runs, (next runs).Patient) :
    Shows v G (some group) (.join group none fun runs _ => next (runs.getD []))
      (.joined limit count (v.begun group) tasks next) :=
  .joined Gs h.groups h.own h.apart h.table h.task h.left hnext

/-- No more tasks have a place and are not over than have taken one. -/
theorem occupied_le (h : Joint v G group limit count g Gs tasks) :
    Underway.occupied (v.begun group) tasks ≤ (v group).taken count := by
  unfold Underway.occupied Table.taken Table.number
  rw [Finset.card_filter]
  refine Finset.sum_le_sum fun i _ => ?_
  cases hseat : (v group).seats i with
  | none =>
    obtain ⟨_, run, _, hrun⟩ := h.left i hseat
    simp [hrun, Underway.isOver]
  | some seat =>
    cases htaken : seat.isTaken with
    | false => simp [begun, hseat, htaken]
    | true =>
      simp only [Option.any_some, htaken, if_true]
      split
      · exact Nat.le_refl 1
      · exact Nat.zero_le 1

theorem below (h : Joint v G group limit count g Gs tasks) {j : Fin count} {k : Nat}
    (hk : Gs j k) : G k ∧ k ≠ group := by
  refine ⟨(h.groups k).2 (.inr ⟨j, hk⟩), ?_⟩
  rintro rfl
  exact h.own j hk

/-- The groups where those of one task have become others. -/
def regroup (group : Nat) (Gs : Fin count → Nat → Prop) (i : Fin count) (H : Nat → Prop) (k : Nat) :
    Prop :=
  k = group ∨ ∃ j, Function.update Gs i H j k

/-- One task has gone on, with new groups of its own, and the others are where they have been. -/
theorem update (h : Joint v G group limit count g Gs tasks) (hbound : ∀ k, G k → k < n)
    (i : Fin count) {w : Underway NodeRun} (hadded : ∀ k, H k → Gs i k ∨ n ≤ k ∧ k < m)
    (hseats : ∀ j : Nat, j ≠ i → (v' group).seats j = (v group).seats j)
    (htable : (v' group).Serves limit count g')
    (hruns : ∀ j : Nat, j ≠ i →
      g'.runs.find? (fun p => p.1 == j) = g.runs.find? (fun p => p.1 == j))
    (hframe : ∀ j, j ≠ i → ∀ k, Gs j k → v' k = v k)
    (htask : ∀ seat, (v' group).seats i = some seat → Shows v' H seat.group? seat.rest w)
    (hover : (v' group).seats i = none → (∀ k, ¬ H k) ∧
      ∃ run, g'.runs.find? (fun p => p.1 == i.val) = some (i.val, run) ∧ w = .going (.done run)) :
    Joint v' (regroup group Gs i H) group limit count g' (Function.update Gs i H)
      (Function.update tasks i w) := by
  have hlt {j : Fin count} {k : Nat} (hk : Gs j k) : k < n :=
    hbound k ((h.groups k).2 (.inr ⟨j, hk⟩))
  have hgroup : group < n := hbound group ((h.groups group).2 (.inl rfl))
  have hapart {j : Fin count} (hj : j ≠ i) {k : Nat} (hk : H k) : ¬ Gs j k := by
    intro hjk
    rcases hadded k hk with hi | ⟨hle, _⟩
    · exact hj (h.apart j i k hjk hi)
    · exact Nat.not_lt.2 hle (hlt hjk)
  refine ⟨fun k => Iff.rfl, fun j => ?_, fun j l k hj hl => ?_, htable, fun j seat hseat => ?_,
    fun j hnone => ?_⟩
  · by_cases hj : j = i
    · subst hj
      rw [Function.update_self]
      intro hk
      rcases hadded group hk with hi | ⟨hle, _⟩
      · exact h.own j hi
      · exact Nat.not_lt.2 hle hgroup
    · rw [Function.update_of_ne hj]
      exact h.own j
  · by_cases hji : j = i <;> by_cases hli : l = i
    · rw [hji, hli]
    · subst hji
      rw [Function.update_self] at hj
      rw [Function.update_of_ne hli] at hl
      exact (hapart hli hj hl).elim
    · subst hli
      rw [Function.update_self] at hl
      rw [Function.update_of_ne hji] at hj
      exact (hapart hji hl hj).elim
    · rw [Function.update_of_ne hji] at hj
      rw [Function.update_of_ne hli] at hl
      exact h.apart j l k hj hl
  · by_cases hj : j = i
    · subst hj
      rw [Function.update_self, Function.update_self]
      exact htask seat hseat
    · rw [Function.update_of_ne hj, Function.update_of_ne hj]
      rw [hseats j fun hval => hj (Fin.ext hval)] at hseat
      exact (h.task j seat hseat).frame (hframe j hj)
  · by_cases hj : j = i
    · subst hj
      rw [Function.update_self, Function.update_self]
      exact hover hnone
    · have hval : (j : Nat) ≠ i := fun hval => hj (Fin.ext hval)
      rw [Function.update_of_ne hj, Function.update_of_ne hj, hruns j hval]
      rw [hseats j hval] at hnone
      exact h.left j hnone

/-- What leads on for one task leads on for the group. -/
theorem leads (h : Joint v G group limit count g Gs tasks)
    (hnext : ∀ runs, (next runs).Patient) {i : Fin count} (hbegun : v.begun group i = true)
    (hbegun' : ∀ j : Fin count, v'.begun group j = v.begun group j)
    {w : Underway NodeRun} {steps : Nat} {calls : List Call}
    (hschedule : Underway.Schedule host steps s (tasks i) calls t w)
    (hadded : ∀ k, H k → Gs i k ∨ n ≤ k ∧ k < m)
    (hkept : ∀ k index seat, (v' k).seats index = some seat → Gs i k ∨ n ≤ k → H k)
    (hafter : Joint v' (regroup group Gs i H) group limit count g' (Function.update Gs i H)
      (Function.update tasks i w)) :
    Leads host v' n m G (some group) (.join group none fun runs _ => next (runs.getD [])) s t
      (.joined limit count (v.begun group) tasks next) := by
  have hsame : (v.begun group : Fin count → Bool) = v'.begun group :=
    funext fun j => (hbegun' j).symm
  refine .intro _ _ steps calls ?_ (hafter.shows hnext) ?_ ?_
  · rw [← hsame]
    exact hschedule.onward hbegun
  · rintro k (rfl | ⟨j, hj⟩)
    · exact .inl ((h.groups k).2 (.inl rfl))
    · by_cases hji : j = i
      · subst hji
        rw [Function.update_self] at hj
        exact (hadded k hj).imp_left fun hk => (h.groups k).2 (.inr ⟨j, hk⟩)
      · rw [Function.update_of_ne hji] at hj
        exact .inl ((h.groups k).2 (.inr ⟨j, hj⟩))
  · intro k index seat hseat hk
    have hown (hk : H k) : regroup group Gs i H k := .inr ⟨i, by rwa [Function.update_self]⟩
    rcases hk with hk | hk
    · rcases (h.groups k).1 hk with rfl | ⟨j, hj⟩
      · exact .inl rfl
      · by_cases hji : j = i
        · subst hji
          exact hown (hkept k index seat hseat (.inl hj))
        · exact .inr ⟨j, by rwa [Function.update_of_ne hji]⟩
    · exact hown (hkept k index seat hseat (.inr hk))

end Joint

/-- **What leads on in a group leads on for everybody above it.** By induction on how deep the group
is. -/
theorem Shows.lift (h : Shows v G join? p u) (hbound : ∀ k, G k → k < n)
    (hgroup : G group) (hsame : ∀ k, G k → k ≠ group → v' k = v k)
    (hlead : ∀ {β : Type} {H : Nat → Prop} {q : Activity β} {w : Underway β}, (∀ k, H k → G k) →
      Shows v H (some group) q w → Leads host v' n m H (some group) q s t w) :
    Leads host v' n m G join? p s t u := by
  induction h with
  | going hG _ => exact (hG group hgroup).elim
  | @joined _ G root limit count g next tasks Gs hG hown hapart htable htask hover hnext ih =>
    have hjoint : Joint v G root limit count g Gs tasks :=
      ⟨hG, hown, hapart, htable, htask, hover⟩
    rcases (hG group).1 hgroup with rfl | ⟨i, hi⟩
    · exact hlead (fun _ hk => hk) (hjoint.shows hnext)
    have hne : root ≠ group := by
      rintro rfl
      exact hown i hi
    have hroot : v' root = v root := hsame root ((hG root).2 (.inl rfl)) hne
    have hbelow {j : Fin count} {k : Nat} (hk : Gs j k) : G k := (hG k).2 (.inr ⟨j, hk⟩)
    cases hseat : (v root).seats i with
    | none => exact ((hover i hseat).1 group hi).elim
    | some seat =>
      obtain ⟨H, w, steps, calls, hschedule, hshows, hadded, hkept⟩ :=
        ih i seat hseat (fun k hk => hbound k (hbelow hk)) hi (fun k hk => hsame k (hbelow hk))
          fun hH => hlead fun k hk => hbelow (hH k hk)
      refine hjoint.leads hnext ?_ (fun j => ?_) hschedule hadded hkept
        (hjoint.update hbound i hadded (fun j _ => by rw [hroot]) (by rwa [hroot]) (fun _ _ => rfl)
          (fun j hj k hk => hsame k (hbelow hk) ?_) (fun other hother => ?_) fun hnone => ?_)
      · have htaken := (htask i seat hseat).isTaken hi
        simpa only [begun, hseat, Option.all_some] using htaken
      · rw [begun, begun, hroot]
      · rintro rfl
        exact hj (hapart j i k hk hi)
      · rw [hroot, hseat] at hother
        obtain rfl := Option.some.inj hother
        exact hshows
      · rw [hroot, hseat] at hnone
        cases hnone

/-! ## What happens at a table -/

/-- A task that has not begun begins where there is a place. -/
theorem Shows.begin (h : Shows v G (some group) p u) (hbound : ∀ k, G k → k < n) {i : Nat}
    {rest : Activity NodeRun} {g : Group} (hseat : (v group).seats i = some (.outside rest))
    (hg : (v group).group = some g) (hfree : g.free ≠ 0)
    (hv : v' group = ((v group).seat i (some (.going rest))).modify fun g =>
      { g with free := g.free - 1 })
    (hsame : ∀ k, G k → k ≠ group → v' k = v k)
    (hkept : ∀ k index seat, (v' k).seats index = some seat → k < n) :
    Leads host v' n m G (some group) p s s u := by
  obtain ⟨limit, count, g, next, Gs, tasks, hjoint, hnext, rfl, rfl⟩ := h.joint
  have hhere := hjoint.table.here
  rw [hg] at hhere
  obtain rfl := Option.some.inj hhere
  obtain ⟨i, rfl⟩ : ∃ j : Fin count, j = i := ⟨⟨i, hjoint.table.index i _ hseat⟩, rfl⟩
  have hbelow {j : Fin count} {k : Nat} (hk : Gs j k) : v' k = v k :=
    hsame k (hjoint.below hk).1 (hjoint.below hk).2
  have hplace : (v' group).seats i = some (.going rest) := by rw [hv]; simp
  have hothers (j : Nat) (hj : j ≠ i) : (v' group).seats j = (v group).seats j := by
    rw [hv, Table.seats_modify, Table.seats_seat_of_ne _ hj]
  have htable : (v' group).Serves limit count { g with free := g.free - 1 } := by
    rw [hv]
    refine hjoint.table.seat (f := fun g => { g with free := g.free - 1 }) i rfl ?_ ?_
    · simp only [hseat, Option.any_some, Seat.isTaken, if_true]
      simp
      omega
    · simp [hseat]
  have hafter : Joint v' (Joint.regroup group Gs i (Gs i)) group limit count
      { g with free := g.free - 1 } (Function.update Gs i (Gs i))
      (Function.update tasks i (tasks i)) := by
    refine hjoint.update (m := m) hbound i (fun _ hk => .inl hk) hothers htable (fun _ _ => rfl)
      (fun j _ k hk => hbelow hk) (fun seat hseat' => ?_) fun hnone => ?_
    · rw [hplace] at hseat'
      obtain rfl := Option.some.inj hseat'
      exact (hjoint.task i _ hseat).frame fun k hk => hbelow hk
    · rw [hplace] at hnone
      cases hnone
  rw [Function.update_eq_self, Function.update_eq_self] at hafter
  have hbegun : v'.begun group = Function.update (v.begun group) i true := by
    funext j
    by_cases hj : j = i
    · subst hj
      rw [Function.update_self, begun, hplace]
      rfl
    · rw [Function.update_of_ne hj, begun, begun, hothers j fun hval => hj (Fin.ext hval)]
  have hstep : Underway.Step host s (.joined limit count (v.begun group) tasks next) [] s
      (.joined limit count (v'.begun group) tasks next) := by
    rw [hbegun]
    refine .begin i ?_ (Nat.lt_of_le_of_lt hjoint.occupied_le ?_)
    · rw [begun, hseat]
      rfl
    · have := hjoint.table.places
      omega
  exact .intro G _ 1 [] (.of_step hstep) ({ hafter with groups := hjoint.groups }.shows hnext)
    (fun _ hk => .inl hk) fun k index seat hseat hk => hk.elim id fun hle =>
      (Nat.not_lt.2 hle (hkept k index seat hseat)).elim

/-- A task that has begun goes on. -/
theorem Shows.onward (h : Shows v G (some group) p u) (hbound : ∀ k, G k → k < n) {i : Nat}
    {seat place : Seat} (hseat : (v group).seats i = some seat) (htaken : seat.isTaken = true)
    (hplace : place.isTaken = true) (hv : v' group = (v group).seat i (some place))
    (hsame : ∀ k, G k → k ≠ group → v' k = v k)
    (hlead : ∀ {H : Nat → Prop} {w : Underway NodeRun}, (∀ k, H k → G k ∧ k ≠ group) →
      Shows v H seat.group? seat.rest w → Leads host v' n m H place.group? place.rest s t w) :
    Leads host v' n m G (some group) p s t u := by
  obtain ⟨limit, count, g, next, Gs, tasks, hjoint, hnext, rfl, rfl⟩ := h.joint
  obtain ⟨i, rfl⟩ : ∃ j : Fin count, j = i := ⟨⟨i, hjoint.table.index i _ hseat⟩, rfl⟩
  have hbelow {j : Fin count} {k : Nat} (hk : Gs j k) : v' k = v k :=
    hsame k (hjoint.below hk).1 (hjoint.below hk).2
  have hself : (v' group).seats i = some place := by rw [hv]; simp
  have hothers (j : Nat) (hj : j ≠ i) : (v' group).seats j = (v group).seats j := by
    rw [hv, Table.seats_seat_of_ne _ hj]
  have htable : (v' group).Serves limit count g := by
    rw [hv]
    have hserves : (((v group).seat i (some place)).modify id).Serves limit count g := by
      refine hjoint.table.seat (f := id) i rfl ?_ ?_
      · simp only [hseat, Option.any_some, htaken, hplace, id]
      · simp [hseat]
    rwa [Table.modify_id] at hserves
  obtain ⟨H, w, steps, calls, hschedule, hshows, hadded, hkept⟩ :=
    hlead (fun _ hk => hjoint.below hk) (hjoint.task i seat hseat)
  have hbegun (j : Fin count) : v'.begun group j = v.begun group j := by
    by_cases hj : j = i
    · subst hj
      simp only [begun, hself, hseat, Option.all_some, htaken, hplace]
    · rw [begun, begun, hothers j fun hval => hj (Fin.ext hval)]
  refine hjoint.leads hnext ?_ hbegun hschedule hadded hkept
    (hjoint.update hbound i hadded hothers htable (fun _ _ => rfl) (fun j _ k hk => hbelow hk)
      (fun other hother => ?_) fun hnone => ?_)
  · simp only [begun, hseat, Option.all_some, htaken]
  · rw [hself] at hother
    obtain rfl := Option.some.inj hother
    exact hshows
  · rw [hself] at hnone
    cases hnone

/-- A task that goes on by itself comes to its end, and gives its place back. -/
theorem Shows.leave (h : Shows v G (some group) p u) (hbound : ∀ k, G k → k < n) {i : Nat}
    {rest : Activity NodeRun} {run : NodeRun} (hseat : (v group).seats i = some (.going rest))
    (hv : v' group = ((v group).seat i none).modify fun g =>
      { g with free := g.free + 1, runs := (i, run) :: g.runs })
    (hsame : ∀ k, G k → k ≠ group → v' k = v k)
    (hkept : ∀ k index seat, (v' k).seats index = some seat → k < n) {steps : Nat}
    {calls : List Call}
    (hschedule : Underway.Schedule host steps s (.going rest) calls t (.going (.done run))) :
    Leads host v' n m G (some group) p s t u := by
  obtain ⟨limit, count, g, next, Gs, tasks, hjoint, hnext, rfl, rfl⟩ := h.joint
  obtain ⟨i, rfl⟩ : ∃ j : Fin count, j = i := ⟨⟨i, hjoint.table.index i _ hseat⟩, rfl⟩
  have hbelow {j : Fin count} {k : Nat} (hk : Gs j k) : v' k = v k :=
    hsame k (hjoint.below hk).1 (hjoint.below hk).2
  have hself : (v' group).seats i = none := by rw [hv]; simp
  have hothers (j : Nat) (hj : j ≠ i) : (v' group).seats j = (v group).seats j := by
    rw [hv, Table.seats_modify, Table.seats_seat_of_ne _ hj]
  have htable : (v' group).Serves limit count
      { g with free := g.free + 1, runs := (i.val, run) :: g.runs } := by
    rw [hv]
    refine hjoint.table.seat (f := fun g =>
      { g with free := g.free + 1, runs := (i.val, run) :: g.runs }) i rfl ?_ ?_
    · simp [hseat, Seat.isTaken]
    · simp [hseat]
  have htask := hjoint.task i _ hseat
  have hbegun (j : Fin count) : v'.begun group j = v.begun group j := by
    by_cases hj : j = i
    · subst hj
      simp only [begun, hself, hseat, Option.all_some, Option.all_none, Seat.isTaken]
    · rw [begun, begun, hothers j fun hval => hj (Fin.ext hval)]
  obtain ⟨hempty, hgoing⟩ : (∀ k, ¬ Gs i k) ∧ tasks i = .going rest := by
    generalize hw : tasks i = w at htask
    cases htask with
    | going hG _ => exact ⟨hG, rfl⟩
  rw [← hgoing] at hschedule
  refine hjoint.leads (H := fun _ => False) hnext ?_ hbegun hschedule (fun _ hk => hk.elim) ?_
    (hjoint.update (m := m) hbound i (fun _ hk => hk.elim) hothers htable (fun j hj => ?_)
      (fun j _ k hk => hbelow hk) (fun seat hseat' => ?_) fun _ => ?_)
  · simp only [begun, hseat, Option.all_some, Seat.isTaken]
  · rintro k index seat hseat' (hk | hle)
    · exact (hempty k hk).elim
    · exact (Nat.not_lt.2 hle (hkept k index seat hseat')).elim
  · exact List.find?_cons_of_neg (by simpa using fun hval => hj hval.symm)
  · rw [hself] at hseat'
    cases hseat'
  · exact ⟨fun _ hk => hk, run, by simp, rfl⟩

/-- Who has started tasks waits for all of them, of which none has begun. -/
theorem shows_start {task : Fin count → Activity NodeRun}
    (hgroup : (v group).group = some ⟨limit, count, []⟩)
    (hseats : ∀ i : Fin count, (v group).seats i = some (.outside (task i)))
    (hindex : ∀ i seat, (v group).seats i = some seat → i < count) (hlimit : 1 ≤ limit)
    (htask : ∀ i, (task i).Patient) (hnext : ∀ runs, (next runs).Patient) :
    Shows v (· = group) (some group) (.join group none fun runs _ => next (runs.getD []))
      (.joined limit count (fun _ => false) (fun i => .going (task i)) next) := by
  have htaken : (v group).taken count = 0 := by
    unfold Table.taken Table.number
    exact Finset.sum_eq_zero fun i _ => by rw [hseats i]; rfl
  have hgone : (v group).gone count = 0 := by
    unfold Table.gone Table.number
    exact Finset.sum_eq_zero fun i _ => by rw [hseats i]; rfl
  have hjoint : Joint v (· = group) group limit count ⟨limit, count, []⟩ (fun _ _ => False)
      (fun i => .going (task i)) := by
    refine ⟨fun k => by simp, fun _ hk => hk, fun _ _ _ hk _ => hk.elim, ?_, fun i seat hseat => ?_,
      fun i hnone => ?_⟩
    · exact ⟨hgroup, rfl, hlimit, by rw [htaken]; rfl, hgone.symm, hindex⟩
    · rw [hseats i] at hseat
      obtain rfl := Option.some.inj hseat
      exact .going (fun _ hk => hk) (htask i)
    · rw [hseats i] at hnone
      cases hnone
  have hbegun : (v.begun group : Fin count → Bool) = fun _ => false := by
    funext i
    rw [begun, hseats i]
    rfl
  exact hbegun ▸ hjoint.shows hnext

/-! ## All results are there -/

/-- The results of a group are there when nobody is at its table any more, and only then. -/
theorem Joint.results (h : Joint v G group limit count g Gs tasks) {runs : List NodeRun}
    (hruns : g.results? = some runs) :
    (∀ i : Fin count, (v group).seats i = none) ∧ ∃ ends : Fin count → NodeRun,
      (∀ i, v.begun group i = true ∧ tasks i = .going (.done (ends i))) ∧
        runs = List.ofFn ends := by
  unfold Group.results? at hruns
  split at hruns
  · next hall =>
    have hnone (i : Fin count) : (v group).seats i = none := by
      rw [h.table.runs, h.table.size] at hall
      simpa using ((v group).number_eq_iff _ _).1 hall i
    choose _ ends hfind hends using fun i => h.left i (hnone i)
    refine ⟨hnone, ends, fun i => ⟨?_, hends i⟩, ?_⟩
    · simp only [begun, hnone, Option.all_none]
    · obtain rfl := Option.some.inj hruns
      rw [h.table.size, List.ofFn_eq_map, ← List.map_coe_finRange_eq_range, List.filterMap_map]
      rw [← List.filterMap_eq_map]
      refine List.filterMap_congr fun i _ => ?_
      simp [hfind]
  · cases hruns

theorem Joint.exists_results (h : Joint v G group limit count g Gs tasks)
    (hnone : ∀ i : Fin count, (v group).seats i = none) : ∃ runs, g.results? = some runs := by
  unfold Group.results?
  rw [if_pos]
  · exact ⟨_, rfl⟩
  · rw [h.table.runs, h.table.size]
    exact ((v group).number_eq_iff _ _).2 fun i => by simp [hnone i]

/-- Whether nobody at a table can go on: every task waits for a place where there is none, or for
results that are not there. -/
def Stuck (v : Seating) (t : Table) : Prop :=
  ∀ i seat, t.seats i = some seat →
    (∃ rest, seat = .outside rest ∧ ∀ g, t.group = some g → g.free = 0) ∨
      ∃ waits rest, seat = .joined waits rest ∧ ∀ g, (v waits).group = some g → g.results? = none

/-- **Where nobody can go on, all results are there.** By induction on how deep the group is: tasks
that wait for others wait for results that are there, so all tasks wait for places, of which there
are none that are taken. -/
theorem Shows.results_of_stuck (h : Shows v G join? p u) (hstuck : ∀ k, G k → Stuck v (v k))
    (hjoin : join? = some group) :
    ∃ g runs, (v group).group = some g ∧ g.results? = some runs := by
  induction h generalizing group with
  | going => cases hjoin
  | @joined _ _ root limit count g _ tasks Gs hG hown hapart htable htask hover _ ih =>
    obtain rfl := Option.some.inj hjoin
    have hjoint : Joint v _ root limit count g Gs tasks :=
      ⟨hG, hown, hapart, htable, htask, hover⟩
    have hroot := hstuck root ((hG root).2 (.inl rfl))
    have houtside (i : Fin count) (seat : Seat) (hseat : (v root).seats i = some seat) :
        (∃ rest, seat = .outside rest) ∧ g.free = 0 := by
      rcases hroot i seat hseat with ⟨rest, rfl, hfull⟩ | ⟨waits, rest, rfl, hwaits⟩
      · exact ⟨⟨rest, rfl⟩, hfull g htable.here⟩
      · obtain ⟨g', runs, hg', hruns⟩ :=
          ih i _ hseat (fun k hk => hstuck k ((hG k).2 (.inr ⟨i, hk⟩))) rfl
        rw [hwaits g' hg'] at hruns
        cases hruns
    have hnone (i : Fin count) : (v root).seats i = none := by
      cases hseat : (v root).seats i with
      | none => rfl
      | some seat =>
        have htaken : (v root).taken count = 0 := by
          unfold Table.taken Table.number
          refine Finset.sum_eq_zero fun j _ => ?_
          cases hj : (v root).seats j with
          | none => rfl
          | some other =>
            obtain ⟨⟨rest, rfl⟩, _⟩ := houtside j other hj
            rfl
        have hfree := (houtside i seat hseat).2
        have hplaces := htable.places
        have hleast := htable.least
        omega
    obtain ⟨runs, hruns⟩ := hjoint.exists_results hnone
    exact ⟨g, runs, htable.here, hruns⟩

end Seating

end WorkflowGraph
