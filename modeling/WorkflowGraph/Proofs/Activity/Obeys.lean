import WorkflowGraph.Activity.Run

/-!
# What activities may ask for and come to

An activity obeys two predicates when every call in its tree satisfies the first one and every
result the second one, whatever the answers are that it gets. Tasks that it starts are held to
the same calls. The laws follow the constructions of activities: going on with another activity
(`obeys_bind`), a span of time (`Obeys.within`), and tasks side by side (`obeys_all`).
-/

set_option autoImplicit false

namespace WorkflowGraph.Activity

variable {α β : Type} {P Q : Call → Prop}

theorem bind_bind {γ : Type} (p : Activity α) (f : α → Activity β) (g : β → Activity γ) :
    (p >>= f) >>= g = p >>= fun a => f a >>= g :=
  bind_assoc p f g

/-- Whether every call of an activity and of the tasks that it starts is one of `P`, and every
result one of `post`. -/
def Obeys (P : Call → Prop) {α : Type} (post : α → Prop) : Activity α → Prop
  | .done a => post a
  | .wait _ p => p.Obeys P post
  | .ask c rest => P c ∧ ∀ a, (rest a).Obeys P post
  | .start _ _ task rest =>
    (∀ i, (task i).Obeys P fun _ => True) ∧ ∀ g, (rest g).Obeys P post
  | .join _ _ rest => ∀ runs spent, (rest runs spent).Obeys P post

theorem Obeys.mono {post other : α → Prop} {p : Activity α} (h : p.Obeys P post)
    (hcalls : ∀ c, P c → Q c) (hpost : ∀ a, post a → other a) : p.Obeys Q other := by
  induction p with
  | done a => exact hpost a h
  | wait _ p ih => exact ih h hpost
  | ask c rest ih => exact ⟨hcalls c h.1, fun a => ih a (h.2 a) hpost⟩
  | start _ _ task rest ihTask ihRest =>
    exact ⟨fun i => ihTask i (h.1 i) fun _ ha => ha, fun g => ihRest g (h.2 g) hpost⟩
  | join _ _ rest ih => exact fun runs spent => ih runs spent (h runs spent) hpost

theorem obeys_bind_iff {post : β → Prop} {p : Activity α} {next : α → Activity β} :
    (p >>= next).Obeys P post ↔ p.Obeys P fun a => (next a).Obeys P post := by
  show (p.bind next).Obeys P post ↔ _
  induction p with
  | done a => exact Iff.rfl
  | wait _ p ih => exact ih
  | ask c rest ih => exact and_congr_right fun _ => forall_congr' fun a => ih a
  | start _ _ task rest _ ih => exact and_congr_right fun _ => forall_congr' fun g => ih g
  | join _ _ rest ih => exact forall_congr' fun runs => forall_congr' fun spent => ih runs spent

theorem obeys_bind {between : α → Prop} {post : β → Prop} {p : Activity α}
    {next : α → Activity β} (h : p.Obeys P between)
    (hnext : ∀ a, between a → (next a).Obeys P post) : (p >>= next).Obeys P post :=
  obeys_bind_iff.2 (h.mono (fun _ hc => hc) hnext)

theorem Obeys.and {post other : α → Prop} {p : Activity α} (h : p.Obeys P post)
    (h' : p.Obeys P other) : p.Obeys P fun a => post a ∧ other a := by
  induction p with
  | done a => exact ⟨h, h'⟩
  | wait _ p ih => exact ih h h'
  | ask c rest ih => exact ⟨h.1, fun a => ih a (h.2 a) (h'.2 a)⟩
  | start _ _ task rest _ ih => exact ⟨h.1, fun g => ih g (h.2 g) (h'.2 g)⟩
  | join _ _ rest ih => exact fun runs spent => ih runs spent (h runs spent) (h' runs spent)

theorem Obeys.bind_congr {between : α → Prop} {p : Activity α} {next other : α → Activity β}
    (h : p.Obeys P between) (heq : ∀ a, between a → next a = other a) :
    p >>= next = p >>= other := by
  show p.bind next = p.bind other
  induction p with
  | done a => exact heq a h
  | wait n p ih => exact congrArg (Activity.wait n) (ih h heq)
  | ask c rest ih => exact congrArg (Activity.ask c) (funext fun a => ih a (h.2 a) heq)
  | start limit count task rest _ ih =>
    exact congrArg (Activity.start limit count task) (funext fun g => ih g (h.2 g) heq)
  | join g span rest ih =>
    refine congrArg (Activity.join g span) (funext fun runs => funext fun spent => ?_)
    exact ih runs spent (h runs spent) heq

theorem obeys_trivial (p : Activity α) : p.Obeys (fun _ => True) fun _ => True := by
  induction p with
  | done => trivial
  | wait _ p ih => exact ih
  | ask c rest ih => exact ⟨trivial, ih⟩
  | start _ _ task rest ihTask ihRest => exact ⟨ihTask, ihRest⟩
  | join _ _ rest ih => exact ih

theorem obeys_perform {c : Call} (h : P c) : (perform c).Obeys P fun _ => True :=
  ⟨h, fun _ => trivial⟩

theorem obeys_sleep (span : Nat) : (sleep span).Obeys P fun _ => True := by
  unfold sleep
  split <;> trivial

theorem obeys_ofResponse (r : Response) : (ofResponse r).Obeys P fun _ => True :=
  obeys_bind (obeys_sleep r.delay) fun _ _ => trivial

theorem obeys_callTask {e : Executor} {r : TaskRequest} (h : P (.task e r)) :
    (callTask e r).Obeys P fun _ => True :=
  obeys_bind (obeys_perform h) fun a _ => obeys_ofResponse a

theorem obeys_callTool {t : BoundTool} {arguments : Value} (h : P (.tool t.registered arguments)) :
    (callTool t arguments).Obeys P fun _ => True :=
  obeys_bind (obeys_perform h) fun a _ => obeys_ofResponse a

/-- Tasks that are given as a family are started as that family. -/
theorem all_ofFn (limit : Nat) {count : Nat} (tasks : Fin count → Activity NodeRun) :
    all limit (List.ofFn tasks) = .start (max 1 limit) count tasks fun group =>
      .join group none fun runs _ => .done (runs.getD []) := by
  have hstart {list : List (Activity NodeRun)} (hlength : list.length = count)
      (htasks : ∀ i, list.get i = tasks (i.cast hlength))
      (rest : Nat → Activity (List NodeRun)) :
      Activity.start (max 1 limit) list.length (fun i => list.get i) rest =
        .start (max 1 limit) count tasks rest := by
    subst hlength
    congr 1
    funext i
    exact htasks i
  refine hstart List.length_ofFn (fun i => ?_) _
  rw [List.get_eq_getElem, List.getElem_ofFn]
  rfl

theorem obeys_all {limit : Nat} {tasks : List (Activity NodeRun)}
    (h : ∀ p ∈ tasks, p.Obeys P fun _ => True) : (all limit tasks).Obeys P fun _ => True :=
  ⟨fun i => h _ (List.getElem_mem i.2), fun _ _ _ => trivial⟩

/-- What is cut off after a span of time has asked for nothing else, and comes to nothing else
when it is not cut off. -/
theorem Obeys.within {post : α → Prop} {p : Activity α} (h : p.Obeys P post) (budget : Nat) :
    (p.within budget).Obeys P fun r => ∀ x, r = some x → post x.1 := by
  induction p generalizing budget with
  | done a =>
    rintro x ⟨⟩
    exact h
  | wait n p ih =>
    unfold Activity.within
    split
    · exact ih h _
    · rintro x ⟨⟩
  | ask c rest ih => exact ⟨h.1, fun a => ih a (h.2 a) budget⟩
  | start _ _ task rest _ ih => exact ⟨h.1, fun g => ih g (h.2 g) budget⟩
  | join g span rest ih =>
    unfold Activity.within
    split
    · exact fun runs spent => ih runs spent (h runs spent) _
    · intro runs spent
      cases runs with
      | some runs => exact ih (some runs) spent (h (some runs) spent) _
      | none => rintro x ⟨⟩

theorem Obeys.withinOption {post : α → Prop} {p : Activity α} (h : p.Obeys P post)
    (budget : Option Nat) :
    (p.withinOption budget).Obeys P fun r => ∀ x, r = some x → post x.1 := by
  cases budget with
  | none =>
    apply obeys_bind h
    rintro a ha x ⟨⟩
    exact ha
  | some n =>
    apply obeys_bind (h.within n)
    intro r hr x hx
    obtain ⟨y, rfl, rfl⟩ := Option.map_eq_some_iff.1 hx
    exact hr y rfl

theorem Obeys.run {σ : Type} {post : α → Prop} {p : Activity α} (h : p.Obeys P post)
    (host : Host σ) (w : World σ) : post (p.run host w).1 := by
  induction p generalizing w with
  | done a => exact h
  | wait _ p ih => exact ih h _
  | ask c rest ih => exact ih _ (h.2 _) _
  | start _ _ task rest _ ih => exact ih _ (h.2 _) _
  | join _ _ rest ih => exact ih _ _ (h _ _) _

end WorkflowGraph.Activity
