import WorkflowGraph.Proofs.Graph.Discipline

/-!
# Activities that learn nothing from their stores

A store tells an activity what has been kept in it before only where a thread is loaded, or where
it is counted what has been pruned. An activity is oblivious if it loads a thread only right after it
has forgotten it, and goes on alike whatever has been pruned (`Activity.Oblivious`). Then no answer
of a store depends on what it holds, as long as it keeps threads apart. So what an oblivious activity
comes to does not depend on this either, which is shown in `WorkflowGraph.Proofs.Activity.Twins`.
-/

set_option autoImplicit false

namespace WorkflowGraph.Activity

variable {P : Store → Prop} {Q : NodeRun → Prop} {α β : Type}
  {forgotten : Option (Store × String)}

/-- Whether an activity that has just forgotten a thread of a store, if one is given, learns nothing
from its stores and comes to results with a postcondition, and so does every task that it starts, as
long as whoever joins gets results of one kind only. It keeps to some stores, and to threads that
have a name. -/
def Oblivious (P : Store → Prop) (Q : NodeRun → Prop) {α : Type} (post : α → Prop) :
    Activity α → Option (Store × String) → Prop
  | .done a, _ => post a
  | .wait _ rest, _ => rest.Oblivious P Q post none
  | .ask (.task _ _) rest, _ => ∀ a, (rest a).Oblivious P Q post none
  | .ask (.tool _ _) rest, _ => ∀ a, (rest a).Oblivious P Q post none
  | .ask (.load store thread) rest, forgotten =>
    (P store ∧ thread ≠ "") ∧ forgotten = some (store, thread) ∧
      (rest (.ok none)).Oblivious P Q post none
  | .ask (.save store c) rest, _ =>
    (P store ∧ c.thread ≠ "") ∧ ∀ a, (rest a).Oblivious P Q post none
  | .ask (.delete store thread) rest, _ =>
    (P store ∧ thread ≠ "") ∧ (rest (.ok ())).Oblivious P Q post (some (store, thread))
  | .ask (.prune store thread keep) rest, _ =>
    ((P store ∧ thread ≠ "") ∧ 1 ≤ keep) ∧ (∀ gone, rest (.ok gone) = rest (.ok 0)) ∧
      (rest (.ok 0)).Oblivious P Q post none
  | .start _ _ task rest, _ =>
    (∀ i, (task i).Oblivious P Q Q none) ∧ ∀ group, (rest group).Oblivious P Q post none
  | .join _ _ rest, _ =>
    ∀ runs spent, (∀ l, runs = some l → ∀ r ∈ l, Q r) → (rest runs spent).Oblivious P Q post none

/-! ## Laws -/

theorem Oblivious.mono {post other : α → Prop} {p : Activity α}
    (h : p.Oblivious P Q post forgotten) (hpost : ∀ a, post a → other a) :
    p.Oblivious P Q other forgotten := by
  induction p generalizing forgotten with
  | done a => exact hpost a h
  | wait _ p ih => exact ih h hpost
  | ask c rest ih =>
    cases c with
    | task | tool => exact fun a => ih a (h a) hpost
    | load => exact ⟨h.1, h.2.1, ih _ h.2.2 hpost⟩
    | save => exact ⟨h.1, fun a => ih a (h.2 a) hpost⟩
    | delete => exact ⟨h.1, ih _ h.2 hpost⟩
    | prune => exact ⟨h.1, h.2.1, ih _ h.2.2 hpost⟩
  | start _ _ task rest _ ih => exact ⟨h.1, fun g => ih g (h.2 g) hpost⟩
  | join _ _ rest ih => exact fun runs spent hruns => ih runs spent (h runs spent hruns) hpost

/-- Who has just forgotten a thread knows more than who has not. -/
theorem Oblivious.of_none {post : α → Prop} {p : Activity α} (h : p.Oblivious P Q post none)
    (forgotten : Option (Store × String)) : p.Oblivious P Q post forgotten := by
  cases p with
  | ask c rest =>
    cases c with
    | load => cases h.2.1
    | task | tool | save | delete | prune => exact h
  | done | wait | start | join => exact h

theorem oblivious_bind {mid : α → Prop} {post : β → Prop} {p : Activity α}
    {next : α → Activity β} (h : p.Oblivious P Q mid forgotten)
    (hnext : ∀ a, mid a → (next a).Oblivious P Q post none) :
    (p >>= next).Oblivious P Q post forgotten := by
  show (p.bind next).Oblivious P Q post forgotten
  induction p generalizing forgotten with
  | done a => exact (hnext a h).of_none forgotten
  | wait _ p ih => exact ih h hnext
  | ask c rest ih =>
    cases c with
    | task | tool => exact fun a => ih a (h a) hnext
    | load => exact ⟨h.1, h.2.1, ih _ h.2.2 hnext⟩
    | save => exact ⟨h.1, fun a => ih a (h.2 a) hnext⟩
    | delete => exact ⟨h.1, ih _ h.2 hnext⟩
    | prune => exact ⟨h.1, fun gone => congrArg (·.bind next) (h.2.1 gone), ih _ h.2.2 hnext⟩
  | start _ _ task rest _ ih => exact ⟨h.1, fun g => ih g (h.2 g) hnext⟩
  | join _ _ rest ih => exact fun runs spent hruns => ih runs spent (h runs spent hruns) hnext

theorem Oblivious.and_obeys {calls : Call → Prop} {post other : α → Prop} {p : Activity α}
    (h : p.Oblivious P Q post forgotten) (h' : p.Obeys calls other) :
    p.Oblivious P Q (fun a => post a ∧ other a) forgotten := by
  induction p generalizing forgotten with
  | done a => exact ⟨h, h'⟩
  | wait _ p ih => exact ih h h'
  | ask c rest ih =>
    cases c with
    | task | tool => exact fun a => ih a (h a) (h'.2 a)
    | load => exact ⟨h.1, h.2.1, ih _ h.2.2 (h'.2 _)⟩
    | save => exact ⟨h.1, fun a => ih a (h.2 a) (h'.2 a)⟩
    | delete => exact ⟨h.1, ih _ h.2 (h'.2 _)⟩
    | prune => exact ⟨h.1, h.2.1, ih _ h.2.2 (h'.2 _)⟩
  | start _ _ task rest _ ih => exact ⟨h.1, fun g => ih g (h.2 g) (h'.2 g)⟩
  | join _ _ rest ih =>
    exact fun runs spent hruns => ih runs spent (h runs spent hruns) (h' runs spent)

/-- What is cut off after a span of time has learned nothing either. -/
theorem Oblivious.within {post : α → Prop} {p : Activity α}
    (h : p.Oblivious P Q post forgotten) (budget : Nat) :
    (p.within budget).Oblivious P Q (fun r => ∀ x, r = some x → post x.1) forgotten := by
  induction p generalizing budget forgotten with
  | done a =>
    rintro _ ⟨⟩
    exact h
  | wait n p ih =>
    unfold Activity.within
    split
    · exact ih h _
    · rintro _ ⟨⟩
  | ask c rest ih =>
    cases c with
    | task | tool => exact fun a => ih a (h a) budget
    | load => exact ⟨h.1, h.2.1, ih _ h.2.2 budget⟩
    | save => exact ⟨h.1, fun a => ih a (h.2 a) budget⟩
    | delete => exact ⟨h.1, ih _ h.2 budget⟩
    | prune => exact ⟨h.1, fun gone => congrArg (·.within budget) (h.2.1 gone), ih _ h.2.2 budget⟩
  | start _ _ task rest _ ih => exact ⟨h.1, fun g => ih g (h.2 g) budget⟩
  | join g span rest ih =>
    unfold Activity.within
    split
    · exact fun runs spent hruns => ih runs spent (h runs spent hruns) _
    · intro runs spent hruns
      cases runs with
      | some runs => exact ih (some runs) spent (h (some runs) spent hruns) _
      | none => rintro _ ⟨⟩

theorem Oblivious.withinOption {post : α → Prop} {p : Activity α}
    (h : p.Oblivious P Q post forgotten) (budget : Option Nat) :
    (p.withinOption budget).Oblivious P Q (fun r => ∀ x, r = some x → post x.1) forgotten := by
  cases budget with
  | none =>
    refine oblivious_bind h fun a ha => ?_
    rintro _ ⟨⟩
    exact ha
  | some n =>
    refine oblivious_bind (h.within n) fun r hr => ?_
    intro x hx
    obtain ⟨y, rfl, rfl⟩ := Option.map_eq_some_iff.1 hx
    exact hr y rfl

theorem oblivious_all (limit : Nat) {count : Nat} {tasks : Fin count → Activity NodeRun}
    (h : ∀ i, (tasks i).Oblivious P Q Q none) :
    (all limit (List.ofFn tasks)).Oblivious P Q (fun runs => ∀ r ∈ runs, Q r) none := by
  rw [all_ofFn]
  refine ⟨h, fun _ runs _ hruns => ?_⟩
  cases runs with
  | none => rintro _ ⟨⟩
  | some runs => exact hruns runs rfl

/-- Activities that ask no store are oblivious, which is a discipline of its own. -/
def Oblivious.discipline (P : Store → Prop) (Q : NodeRun → Prop) :
    Discipline (fun _ => False) Q where
  Holds _ _ post p := p.Oblivious P Q post none
  done h := h
  wait h := h
  mono h _ hpost := h.mono hpost
  bind h hnext := oblivious_bind h hnext
  perform {O c} hc := by
    cases c with
    | task | tool => exact fun _ => trivial
    | load | save | delete => exact hc.1.elim
    | prune => exact hc.1.1.elim
  all limit _ _ _ _ _ htasks := oblivious_all limit htasks

theorem oblivious_sleep (span : Nat) :
    (sleep span).Oblivious P Q (fun _ => True) none :=
  (Oblivious.discipline P Q).sleep (O := fun _ => True) span

end WorkflowGraph.Activity
