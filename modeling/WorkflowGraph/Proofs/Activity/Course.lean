import WorkflowGraph.Proofs.Activity.Adequacy
import WorkflowGraph.Proofs.Activity.Meets

/-!
# Courses of activities

A course of an activity is one way in which it can go: the calls that it makes one after the
other, the answers that it gets, and what it comes to. Nothing is said of where the answers come
from. What an activity meets when nothing of the world is kept in mind holds of every course whose
answers may come (`Meets.course`).

A course of an activity that goes on with another one is a course of each, one behind the other
(`exists_of_course_bind`). What a limited time cuts off is the beginning of a course
(`course_of_within`).

The calls that an activity makes when it is carried out are one of its courses, each with the world
in which it is answered (`Activity.events`). The calls of the tasks under way are not among them;
where these are not noticed, every one of the calls is answered in a world that shows what has been
there at the start (`Activity.Obeys.events_show`).
-/

set_option autoImplicit false

namespace WorkflowGraph.Activity

variable {α : Type}

/-- A call and the answer that it got. -/
abbrev Exchange : Type := (c : Call) × c.Answer

/-- Whether an activity can make calls and get answers one after the other, and come to a result.
The calls of the tasks that it starts are not among them. -/
inductive Course : {α : Type} → Activity α → List Exchange → α → Prop where
  | done {α : Type} (a : α) : Course (.done a) [] a
  | wait {α : Type} {span : Nat} {p : Activity α} {es : List Exchange} {a : α}
    (h : Course p es a) : Course (.wait span p) es a
  | ask {α : Type} {c : Call} {rest : c.Answer → Activity α} (answer : c.Answer)
    {es : List Exchange} {a : α} (h : Course (rest answer) es a) :
    Course (.ask c rest) (⟨c, answer⟩ :: es) a
  | start {α : Type} {limit count : Nat} {task : Fin count → Activity NodeRun}
    {rest : Nat → Activity α} (group : Nat) {es : List Exchange} {a : α}
    (h : Course (rest group) es a) : Course (.start limit count task rest) es a
  | join {α : Type} {group : Nat} {span : Option Nat}
    {rest : Option (List NodeRun) → Nat → Activity α} (runs : Option (List NodeRun))
    (spent : Nat) {es : List Exchange} {a : α} (h : Course (rest runs spent) es a) :
    Course (.join group span rest) es a

/-- In a course whose answers may come, every call is allowed and the result satisfies the
postcondition. -/
theorem Meets.course {R : Regime Unit} {inv : Unit → Prop} {post : α → Unit → Prop}
    {p : Activity α} {es : List Exchange} {a : α} (h : p.Meets R inv post ())
    (hcourse : Course p es a) (hes : ∀ e ∈ es, R.answers () e.1 e.2 ()) :
    post a () ∧ ∀ e ∈ es, R.allows () e.1 := by
  induction hcourse with
  | done a => exact ⟨h, by simp⟩
  | wait _ ih => exact ih h.2 hes
  | ask answer _ ih =>
    obtain ⟨hpost, hallowed⟩ := ih (h.2 answer () (hes _ List.mem_cons_self))
      fun e he => hes e (List.mem_cons_of_mem _ he)
    exact ⟨hpost, List.forall_mem_cons.2 ⟨h.1, hallowed⟩⟩
  | start group _ ih => exact ih (h.2 group) hes
  | join runs spent _ ih => exact ih (h.2 runs spent) hes

/-! ## Courses in parts -/

variable {β : Type}

/-- A course of an activity that goes on with another one is made up of a course of each. -/
theorem exists_of_course_bind {p : Activity α} {next : α → Activity β} {es : List Exchange} {b : β}
    (h : Course (p >>= next) es b) :
    ∃ front back a, Course p front a ∧ Course (next a) back b ∧ es = front ++ back := by
  replace h : Course (p.bind next) es b := h
  induction p generalizing es with
  | done a => exact ⟨[], es, a, .done a, h, rfl⟩
  | wait span p ih =>
    cases h with
    | wait h =>
      obtain ⟨front, back, a, hfront, hback, rfl⟩ := ih h
      exact ⟨front, back, a, .wait hfront, hback, rfl⟩
  | ask c rest ih =>
    cases h with
    | ask answer h =>
      obtain ⟨front, back, a, hfront, hback, rfl⟩ := ih answer h
      exact ⟨⟨c, answer⟩ :: front, back, a, .ask answer hfront, hback, rfl⟩
  | start limit count task rest _ ih =>
    cases h with
    | start group h =>
      obtain ⟨front, back, a, hfront, hback, rfl⟩ := ih group h
      exact ⟨front, back, a, .start group hfront, hback, rfl⟩
  | join group span rest ih =>
    cases h with
    | join runs spent h =>
      obtain ⟨front, back, a, hfront, hback, rfl⟩ := ih runs spent h
      exact ⟨front, back, a, .join runs spent hfront, hback, rfl⟩

theorem course_bind {p : Activity α} {next : α → Activity β} {front back : List Exchange} {a : α}
    {b : β} (h : Course p front a) (hnext : Course (next a) back b) :
    Course (p >>= next) (front ++ back) b := by
  show Course (p.bind next) (front ++ back) b
  induction h with
  | done a => exact hnext
  | wait _ ih => exact .wait (ih hnext)
  | ask answer _ ih => exact .ask answer (ih hnext)
  | start group _ ih => exact .start group (ih hnext)
  | join runs spent _ ih => exact .join runs spent (ih hnext)

theorem course_pure_iff {a b : α} {es : List Exchange} :
    Course (pure a) es b ↔ es = [] ∧ b = a := by
  constructor
  · intro h
    replace h : Course (.done a) es b := h
    cases h
    exact ⟨rfl, rfl⟩
  · rintro ⟨rfl, rfl⟩
    exact .done b

theorem eq_of_course_pure {a b : α} {es : List Exchange} (h : Course (pure a) es b) :
    es = [] ∧ b = a :=
  course_pure_iff.1 h

/-- Nothing happens while time passes. -/
theorem course_sleep (span : Nat) : Course (sleep span) [] () := by
  unfold sleep
  split
  · exact .done ()
  · exact .wait (.done ())

theorem eq_nil_of_course_sleep {span : Nat} {es : List Exchange} {u : Unit}
    (h : Course (sleep span) es u) : es = [] := by
  unfold sleep at h
  split at h
  · cases h
    rfl
  · cases h with
    | wait h =>
      cases h
      rfl

theorem eq_of_course_ofResponse {r : Response} {es : List Exchange} {a : Except TaskError Value}
    (h : Course (ofResponse r) es a) : es = [] ∧ a = r.result := by
  obtain ⟨front, back, u, hfront, hback, rfl⟩ := exists_of_course_bind h
  obtain ⟨rfl, rfl⟩ := eq_of_course_pure hback
  exact ⟨by rw [eq_nil_of_course_sleep hfront, List.nil_append], rfl⟩

/-- A call of an executor is one exchange. -/
theorem exists_of_course_callTask {e : Executor} {r : TaskRequest} {es : List Exchange}
    {a : Except TaskError Value} (h : Course (callTask e r) es a) :
    ∃ response : Response, es = [⟨.task e r, response⟩] ∧ a = response.result := by
  replace h : Course (.ask (.task e r) fun response => ofResponse response) es a := h
  cases h with
  | ask response h =>
    obtain ⟨rfl, rfl⟩ := eq_of_course_ofResponse h
    exact ⟨response, rfl, rfl⟩

/-- A call of a tool is one exchange. -/
theorem exists_of_course_callTool {t : BoundTool} {arguments : Value} {es : List Exchange}
    {a : Except TaskError Value} (h : Course (callTool t arguments) es a) :
    ∃ response : Response,
      es = [⟨.tool t.registered arguments, response⟩] ∧ a = response.result := by
  replace h : Course (.ask (.tool t.registered arguments) fun response => ofResponse response)
    es a := h
  cases h with
  | ask response h =>
    obtain ⟨rfl, rfl⟩ := eq_of_course_ofResponse h
    exact ⟨response, rfl, rfl⟩

/-! ## Courses that are cut off -/

/-- Where every call has an answer of some kind, every activity has a course of such answers. -/
theorem exists_course {P : Exchange → Prop} (hP : ∀ c : Call, ∃ answer, P ⟨c, answer⟩)
    (p : Activity α) : ∃ es a, Course p es a ∧ ∀ e ∈ es, P e := by
  induction p with
  | done a => exact ⟨[], a, .done a, by simp⟩
  | wait span p ih =>
    obtain ⟨es, a, hcourse, hes⟩ := ih
    exact ⟨es, a, .wait hcourse, hes⟩
  | ask c rest ih =>
    obtain ⟨answer, hanswer⟩ := hP c
    obtain ⟨es, a, hcourse, hes⟩ := ih answer
    exact ⟨⟨c, answer⟩ :: es, a, .ask answer hcourse, List.forall_mem_cons.2 ⟨hanswer, hes⟩⟩
  | start limit count task rest _ ih =>
    obtain ⟨es, a, hcourse, hes⟩ := ih 0
    exact ⟨es, a, .start 0 hcourse, hes⟩
  | join group span rest ih =>
    obtain ⟨es, a, hcourse, hes⟩ := ih none 0
    exact ⟨es, a, .join none 0 hcourse, hes⟩

/-- An activity that has a limited time goes as it would without the limit, or it is cut off: then
what has happened is the beginning of a course that it might have taken, whatever the answers are
like that it would still have got. -/
theorem course_of_within {P : Exchange → Prop} (hP : ∀ c : Call, ∃ answer, P ⟨c, answer⟩)
    {p : Activity α} {budget : Nat} {es : List Exchange} {x : Option (α × Nat)}
    (h : Course (p.within budget) es x) :
    (∃ a left, x = some (a, left) ∧ Course p es a) ∨
      x = none ∧ ∃ more a, Course p (es ++ more) a ∧ ∀ e ∈ more, P e := by
  induction p generalizing budget es with
  | done a =>
    cases h
    exact .inl ⟨a, budget, rfl, .done a⟩
  | wait span p ih =>
    unfold within at h
    split at h
    · cases h with
      | wait h =>
        rcases ih h with ⟨a, left, hx, hcourse⟩ | ⟨hx, more, a, hcourse, hmore⟩
        · exact .inl ⟨a, left, hx, .wait hcourse⟩
        · exact .inr ⟨hx, more, a, .wait hcourse, hmore⟩
    · cases h with
      | wait h =>
        cases h
        obtain ⟨more, a, hcourse, hmore⟩ := exists_course hP p
        exact .inr ⟨rfl, more, a, .wait hcourse, hmore⟩
  | ask c rest ih =>
    cases h with
    | ask answer h =>
      rcases ih answer h with ⟨a, left, hx, hcourse⟩ | ⟨hx, more, a, hcourse, hmore⟩
      · exact .inl ⟨a, left, hx, .ask answer hcourse⟩
      · exact .inr ⟨hx, more, a, .ask answer hcourse, hmore⟩
  | start limit count task rest _ ih =>
    cases h with
    | start group h =>
      rcases ih group h with ⟨a, left, hx, hcourse⟩ | ⟨hx, more, a, hcourse, hmore⟩
      · exact .inl ⟨a, left, hx, .start group hcourse⟩
      · exact .inr ⟨hx, more, a, .start group hcourse, hmore⟩
  | join group span rest ih =>
    have onward {runs : Option (List NodeRun)} {spent : Nat} {es : List Exchange}
        (h : Course ((rest runs spent).within (budget - spent)) es x) :
        (∃ a left, x = some (a, left) ∧ Course (.join group span rest) es a) ∨
          x = none ∧ ∃ more a, Course (.join group span rest) (es ++ more) a ∧
            ∀ e ∈ more, P e := by
      rcases ih runs spent h with ⟨a, left, hx, hcourse⟩ | ⟨hx, more, a, hcourse, hmore⟩
      · exact .inl ⟨a, left, hx, .join runs spent hcourse⟩
      · exact .inr ⟨hx, more, a, .join runs spent hcourse, hmore⟩
    unfold within at h
    split at h
    · cases h with
      | join runs spent h => exact onward h
    · cases h with
      | join runs spent h =>
        cases runs with
        | some runs => exact onward h
        | none =>
          cases h
          obtain ⟨more, a, hcourse, hmore⟩ := exists_course hP (rest none spent)
          exact .inr ⟨rfl, more, a, .join none spent hcourse, hmore⟩

end WorkflowGraph.Activity

/-! ## What happens while an activity is carried out -/

namespace WorkflowGraph

open Activity

variable {σ α β : Type}

/-- A call, and the world in which it is answered. -/
abbrev Event (σ : Type) : Type 1 := Call × World σ

namespace Activity

/-- The calls that an activity makes when it is carried out. -/
def events (h : Host σ) (w : World σ) : Activity α → List (Event σ)
  | .done _ => []
  | .wait n p => p.events h (w.pass h n)
  | .ask c rest =>
    let v := if c.isSlow then w.rest h else w
    (c, v) :: (rest (c.answer h v).1).events h (c.answer h v).2
  | .start limit count task rest =>
    let (group, crew) := w.crew.start w.clock limit count task
    (rest group).events h { w with crew }
  | .join group span rest =>
    let v := w.await h group span
    (rest (v.crew.results? group) (v.clock - w.clock)).events h v

/-- The answer that a call gets in its world. -/
def exchanged (h : Host σ) (e : Event σ) : Exchange := ⟨e.1, (e.1.answer h e.2).1⟩

/-- Carrying out an activity is one of its courses. -/
theorem course_run (h : Host σ) (w : World σ) (p : Activity α) :
    Course p ((p.events h w).map (exchanged h)) (p.run h w).1 := by
  induction p generalizing w with
  | done a => exact .done a
  | wait n p ih => exact .wait (ih _)
  | ask c rest ih => exact .ask _ (ih _ _)
  | start limit count task rest _ ih => exact .start _ (ih _ _)
  | join group span rest ih => exact .join _ _ (ih _ _ _)

/-- What happens while an activity goes on with another one happens in two parts. -/
theorem events_bind (h : Host σ) (w : World σ) (p : Activity α) (next : α → Activity β) :
    (p >>= next).events h w =
      p.events h w ++ (next (p.run h w).1).events h (p.run h w).2 := by
  show (p.bind next).events h w = _
  induction p generalizing w with
  | done a => rfl
  | wait n p ih => exact ih _ next
  | ask c rest ih => exact congrArg (List.cons _) (ih _ _ next)
  | start limit count task rest _ ih => exact ih _ _ next
  | join group span rest ih => exact ih _ _ _ next

/-- An activity whose calls are not noticed makes all of them, and comes to its end, in worlds that
show what has been there at the start. -/
theorem Obeys.events_show {M : Type} {R : Regime M} {view : Storage → M → Prop} {m : M}
    {post : α → Prop} {p : Activity α} (h : p.Obeys R.background post) (host : Host σ)
    (hR : R.SeenThrough view) {w : World σ} (hw : w.Shows R view m) :
    (∀ e ∈ p.events host w, R.background e.1 ∧ e.2.Shows R view m) ∧
      (p.run host w).2.Shows R view m := by
  induction p generalizing w with
  | done a =>
    refine ⟨?_, hw⟩
    rintro e ⟨⟩
  | wait n p ih => exact ih h (hw.pass host hR n)
  | ask c rest ih =>
    have hbefore := hw.beforeAnswer host hR c
    obtain ⟨hevents, hafter⟩ := ih _ (h.2 _) (hbefore.answer hR h.1)
    exact ⟨List.forall_mem_cons.2 ⟨⟨h.1, hbefore⟩, hevents⟩, hafter⟩
  | start limit count task rest _ ih => exact ih _ (h.2 _) (hw.start h.1)
  | join group span rest ih => exact ih _ _ (h _ _) (hw.await host hR group span)

/-- An activity that meets a postcondition makes calls that its regime allows only. -/
theorem Meets.events_allowed {M : Type} {R : Regime M} {view : Storage → M → Prop}
    {inv : M → Prop} {post : α → M → Prop} {p : Activity α} {m : M} (h : p.Meets R inv post m)
    (host : Host σ) (hR : R.SeenThrough view) {w : World σ} (hw : w.Shows R view m) :
    ∀ e ∈ p.events host w, ∃ k, R.allows k e.1 := by
  induction p generalizing w m with
  | done a => rintro e ⟨⟩
  | wait n p ih => exact ih h.2 (hw.pass host hR n)
  | ask c rest ih =>
    have hw := hw.beforeAnswer host hR c
    obtain ⟨k, hk, hview⟩ := hR.allowed host _ m c hw.view h.1
    exact List.forall_mem_cons.2 ⟨⟨m, h.1⟩, ih _ (h.2 _ k hk) (hw.of_answer hview)⟩
  | start limit count task rest _ ih => exact ih _ (h.2 _) (hw.start h.1)
  | join group span rest ih => exact ih _ _ (h.2 _ _) (hw.await host hR group span)

end Activity

end WorkflowGraph
