import WorkflowGraph.Proofs.Activity.Obeys
import WorkflowGraph.Activity.Run

/-!
# What tasks hand on

Whoever joins a group gets what its tasks have come to. If every task that is started comes to
something of one kind, then whoever joins gets results of this kind only, so that an activity may
rely on it (`Activity.Yields`). That it may is shown here: a world whose tasks under way will come
to results of this kind, and whose groups hold no others, stays so (`World.Yields.settle`), and an
activity that relies on it comes to a result with its postcondition (`Activity.Yields.run`).
-/

set_option autoImplicit false

namespace WorkflowGraph

open Activity

variable {σ α β : Type} {Q : NodeRun → Prop}

/-- Whether an activity comes to results with a postcondition, and the tasks that it starts to
results of one kind, as long as whoever joins gets results of this kind only. -/
def Activity.Yields (Q : NodeRun → Prop) {α : Type} (post : α → Prop) : Activity α → Prop
  | .done a => post a
  | .wait _ p => p.Yields Q post
  | .ask _ rest => ∀ a, (rest a).Yields Q post
  | .start _ _ task rest => (∀ i, (task i).Yields Q Q) ∧ ∀ g, (rest g).Yields Q post
  | .join _ _ rest =>
    ∀ runs spent, (∀ l, runs = some l → ∀ r ∈ l, Q r) → (rest runs spent).Yields Q post

namespace Activity

/-! ## Laws -/

theorem Yields.mono {post other : α → Prop} {p : Activity α} (h : p.Yields Q post)
    (hpost : ∀ a, post a → other a) : p.Yields Q other := by
  induction p with
  | done a => exact hpost a h
  | wait _ p ih => exact ih h hpost
  | ask c rest ih => exact fun a => ih a (h a) hpost
  | start _ _ task rest _ ih => exact ⟨h.1, fun g => ih g (h.2 g) hpost⟩
  | join _ _ rest ih => exact fun runs spent hruns => ih runs spent (h runs spent hruns) hpost

theorem yields_bind {mid : α → Prop} {post : β → Prop} {p : Activity α} {next : α → Activity β}
    (h : p.Yields Q mid) (hnext : ∀ a, mid a → (next a).Yields Q post) :
    (p >>= next).Yields Q post := by
  show (p.bind next).Yields Q post
  induction p with
  | done a => exact hnext a h
  | wait _ p ih => exact ih h hnext
  | ask c rest ih => exact fun a => ih a (h a) hnext
  | start _ _ task rest _ ih => exact ⟨h.1, fun g => ih g (h.2 g) hnext⟩
  | join _ _ rest ih => exact fun runs spent hruns => ih runs spent (h runs spent hruns) hnext

theorem Yields.within {post : α → Prop} {p : Activity α} (h : p.Yields Q post) (budget : Nat) :
    (p.within budget).Yields Q fun r => ∀ x, r = some x → post x.1 := by
  induction p generalizing budget with
  | done a =>
    rintro x ⟨⟩
    exact h
  | wait n p ih =>
    unfold Activity.within
    split
    · exact ih h _
    · rintro x ⟨⟩
  | ask c rest ih => exact fun a => ih a (h a) budget
  | start _ _ task rest _ ih => exact ⟨h.1, fun g => ih g (h.2 g) budget⟩
  | join g span rest ih =>
    unfold Activity.within
    split
    · exact fun runs spent hruns => ih runs spent (h runs spent hruns) _
    · intro runs spent hruns
      cases runs with
      | some runs => exact ih (some runs) spent (h (some runs) spent hruns) _
      | none => rintro x ⟨⟩

theorem yields_all (limit : Nat) {count : Nat} {tasks : Fin count → Activity NodeRun}
    (h : ∀ i, (tasks i).Yields Q Q) :
    (all limit (List.ofFn tasks)).Yields Q fun runs => ∀ r ∈ runs, Q r := by
  rw [all_ofFn]
  refine ⟨h, fun _ runs _ hruns => ?_⟩
  cases runs with
  | none => rintro r ⟨⟩
  | some runs => exact hruns runs rfl

/-- Nothing is relied on where tasks may come to anything. -/
theorem obeys_iff_yields {post : α → Prop} {p : Activity α} :
    p.Obeys (fun _ => True) post ↔ p.Yields (fun _ => True) post := by
  induction p with
  | done => exact Iff.rfl
  | wait _ _ ih => exact ih
  | ask c rest ih => exact (and_iff_right trivial).trans (forall_congr' fun a => ih a)
  | start _ _ task rest ihTask ih =>
    have htasks : ∀ i, (task i).Yields (fun _ => True) fun _ => True := fun i =>
      (ihTask i).1 (obeys_trivial _)
    exact (and_iff_right fun i => obeys_trivial _).trans
      ((forall_congr' fun g => ih g).trans (and_iff_right htasks).symm)
  | join _ _ rest ih =>
    refine forall_congr' fun runs => forall_congr' fun spent => (ih runs spent).trans ?_
    exact (imp_iff_right fun _ _ _ _ => trivial).symm

end Activity

/-! ## Worlds -/

/-- Whether the strands of a crew come to results of one kind. -/
def Crew.Promise (Q : NodeRun → Prop) (strands : List Strand) : Prop :=
  ∀ p, (⟨NodeRun, p⟩ : Activity.Tree) ∈ Crew.trees strands → p.Yields Q Q

/-- Whether groups hold results of one kind only. -/
def Crew.Hold (Q : NodeRun → Prop) (groups : List Group) : Prop :=
  ∀ g ∈ groups, ∀ p ∈ g.runs, Q p.2

/-- Whether the tasks under way in a world come to results of one kind, and its groups hold no
others. -/
structure World.Yields (Q : NodeRun → Prop) (w : World σ) : Prop where
  strands : Crew.Promise Q w.crew.strands
  groups : Crew.Hold Q w.crew.groups

/-- Whether what is left of a halted activity comes to results with a postcondition. -/
def Activity.Halt.Yields (Q : NodeRun → Prop) (post : α → Prop) : Halt α → Prop
  | .finished a => post a
  | .paused _ rest => rest.Yields Q post
  | .joined _ _ rest => rest.Yields Q post

namespace Crew

variable {c : Crew}

theorem promise_append {xs ys : List Strand} :
    Promise Q (xs ++ ys) ↔ Promise Q xs ∧ Promise Q ys := by
  simp only [Promise, trees_append, List.mem_append, or_imp, forall_and]

theorem promise_singleton {s : Strand} : Promise Q [s] ↔ s.rest.Yields Q Q := by
  refine ⟨fun h => h _ (List.mem_singleton.2 rfl), fun h p hp => ?_⟩
  cases List.mem_singleton.1 hp
  exact h

/-- Changing a group in a way that adds no other results leaves the groups as they should be. -/
theorem Hold.modify {groups : List Group} (h : Hold Q groups) {f : Group → Group}
    (hf : ∀ g, (∀ p ∈ g.runs, Q p.2) → ∀ p ∈ (f g).runs, Q p.2) (group : Nat) :
    Hold Q (groups.modify group f) := by
  intro g hg
  obtain ⟨i, hi, rfl⟩ := List.mem_iff_getElem.1 hg
  rw [List.length_modify] at hi
  rw [List.getElem_modify]
  have hold := h _ (List.getElem_mem hi)
  split
  · exact hf _ hold
  · exact hold

theorem Hold.finish (h : Hold Q c.groups) (clock group index : Nat) {run : NodeRun}
    (hrun : Q run) : Hold Q (c.finish clock group index run).groups := by
  have hnoted : Hold Q (c.modify group fun g => { g with runs := (index, run) :: g.runs }).groups :=
    h.modify (fun g hg => by exact List.forall_mem_cons.2 ⟨hrun, hg⟩) group
  unfold Crew.finish leavePlace
  dsimp only
  split
  · exact hnoted
  · exact hnoted.modify (by exact fun _ hg => hg) group

theorem Hold.results {group : Nat} {runs : List NodeRun} (h : Hold Q c.groups)
    (hruns : c.results? group = some runs) : ∀ r ∈ runs, Q r := by
  unfold results? at hruns
  split at hruns
  · next g hg =>
    unfold Group.results? at hruns
    split at hruns
    · obtain rfl := Option.some.inj hruns
      intro r hr
      obtain ⟨i, _, hi⟩ := List.mem_filterMap.1 hr
      obtain ⟨p, hp, rfl⟩ := Option.map_eq_some_iff.1 hi
      exact h g (List.mem_of_getElem? hg) p (List.mem_of_find?_eq_some hp)
    · cases hruns
  · cases hruns
    rintro r ⟨⟩

end Crew

namespace World.Yields

variable {w : World σ}

/-- Where no task has been started, none comes to anything. -/
theorem of_idle (h : w.crew = .empty) : w.Yields Q := by
  refine ⟨?_, ?_⟩
  · rw [h]
    rintro p ⟨⟩
  · rw [h]
    rintro g ⟨⟩

theorem answer (h : w.Yields Q) (host : Host σ) (c : Call) : (c.answer host w).2.Yields Q := by
  refine ⟨?_, ?_⟩
  · rw [c.crew_answer]
    exact h.strands
  · rw [c.crew_answer]
    exact h.groups

theorem start (h : w.Yields Q) (limit count : Nat) {task : Fin count → Activity NodeRun}
    (htask : ∀ i, (task i).Yields Q Q) :
    World.Yields Q { w with crew := (w.crew.start w.clock limit count task).2 } := by
  refine ⟨Crew.promise_append.2 ⟨h.strands, fun p hp => ?_⟩, fun g hg => ?_⟩
  · simp only [Crew.trees, List.mem_map, List.mem_ofFn] at hp
    obtain ⟨s, ⟨i, rfl⟩, heq⟩ := hp
    cases heq
    exact htask i
  · rcases List.mem_append.1 hg with hg | hg
    · exact h.groups g hg
    · rw [List.mem_singleton.1 hg]
      rintro p ⟨⟩

theorem advance (host : Host σ) {post : α → Prop} {p : Activity α} (h : w.Yields Q)
    (hp : p.Yields Q post) :
    (p.advance host w).2.Yields Q ∧ (p.advance host w).1.Yields Q post := by
  induction p generalizing w with
  | done a => exact ⟨h, hp⟩
  | wait n p ih =>
    unfold Activity.advance
    split
    · exact ih h hp
    · exact ⟨h, hp⟩
  | ask c rest ih => exact ih _ (h.answer host c) (hp _)
  | start limit count task rest _ ih => exact ih _ (h.start limit count hp.1) (hp.2 _)
  | join g span rest ih =>
    unfold Activity.advance
    split
    · next runs hruns =>
      refine ih _ _ h (hp _ _ ?_)
      rintro _ ⟨⟩
      exact h.groups.results hruns
    · split
      · refine ih _ _ h (hp _ _ ?_)
        rintro _ ⟨⟩
      · exact ⟨h, hp⟩

theorem goOn (host : Host σ) {front back : List Strand} {s : Strand} {p : Activity NodeRun}
    (hgroups : Crew.Hold Q w.crew.groups) (hfront : Crew.Promise Q front)
    (hback : Crew.Promise Q back) (hp : p.Yields Q Q) : (w.goOn host front s back p).Yields Q := by
  have hempty : (w.put [] [] []).Yields Q := by
    refine ⟨?_, hgroups⟩
    rintro p ⟨⟩
  obtain ⟨hw, hhalt⟩ := hempty.advance host hp
  have hall {strands : List Strand} (hs : Crew.Promise Q strands) :
      Crew.Promise Q (front ++ strands ++ back) :=
    Crew.promise_append.2 ⟨Crew.promise_append.2 ⟨hfront, hs⟩, hback⟩
  have hone {strand : Strand} (hs : strand.rest.Yields Q Q) :=
    hall (Crew.promise_append.2 ⟨hw.strands, Crew.promise_singleton.2 hs⟩)
  unfold World.goOn
  cases hh : (p.advance host (w.put [] [] [])).1 with
  | finished run =>
    rw [hh] at hhalt
    simp only [hh]
    refine ⟨?_, Crew.Hold.finish (by exact hw.groups) _ _ _ hhalt⟩
    unfold Crew.Promise
    rw [Crew.trees_finish]
    exact hall hw.strands
  | paused n rest =>
    rw [hh] at hhalt
    simp only [hh]
    exact ⟨hone hhalt, hw.groups⟩
  | joined group n rest =>
    rw [hh] at hhalt
    simp only [hh]
    exact ⟨hone hhalt, hw.groups⟩

theorem turn (host : Host σ) {front back : List Strand} {s : Strand} (h : w.Yields Q)
    (hs : w.crew.strands = front ++ s :: back) : (w.turn host front s back).Yields Q := by
  have hstrands := h.strands
  rw [hs, ← List.singleton_append, Crew.promise_append, Crew.promise_append,
    Crew.promise_singleton] at hstrands
  obtain ⟨hfront, hrest, hback⟩ := hstrands
  have hanswered (runs : Option (List NodeRun)) (spent : Nat)
      (hruns : ∀ l, runs = some l → ∀ r ∈ l, Q r) : (s.rest.answered runs spent).Yields Q Q := by
    unfold Activity.answered
    split
    · next hjoin =>
      rw [hjoin] at hrest
      exact hrest runs spent hruns
    · exact hrest
  have hsame (stage : Stage) : (w.put front [{ s with stage }] back).Yields Q :=
    ⟨Crew.promise_append.2 ⟨Crew.promise_append.2 ⟨hfront, Crew.promise_singleton.2 hrest⟩, hback⟩,
      h.groups⟩
  have htaken : Crew.Hold Q (w.crew.takePlace s.group).groups :=
    h.groups.modify (by exact fun _ hg => hg) s.group
  unfold World.turn
  split
  · exact goOn host h.groups hfront hback hrest
  · split
    · exact goOn host htaken hfront hback hrest
    · exact hsame _
  · exact h
  · split
    · next runs hruns =>
      refine goOn host h.groups hfront hback (hanswered _ _ ?_)
      rintro _ ⟨⟩
      exact h.groups.results hruns
    · split
      · refine goOn host h.groups hfront hback (hanswered _ _ ?_)
        rintro _ ⟨⟩
      · exact hsame _

theorem settle (host : Host σ) (goal limit : Option Nat) (h : w.Yields Q) :
    (w.settle host goal limit).Yields Q := by
  fun_induction World.settle with
  | case1 w front s back hp ih => exact ih (h.turn host (Crew.pick?_eq_some hp).1)
  | case2 w _ _ => exact h
  | case3 w _ _ _ _ _ => exact ⟨h.strands, h.groups⟩
  | case4 w _ _ _ _ _ ih => exact ih ⟨h.strands, h.groups⟩
  | case5 w _ _ _ => exact ⟨h.strands, h.groups⟩

theorem pass (host : Host σ) (span : Nat) (h : w.Yields Q) : (w.pass host span).Yields Q := by
  unfold World.pass
  split
  · exact h
  · exact h.settle host _ _

theorem await (host : Host σ) (group : Nat) (span : Option Nat) (h : w.Yields Q) :
    (w.await host group span).Yields Q := by
  unfold World.await
  split
  · exact h
  · exact h.settle host _ _

end World.Yields

/-- **What tasks come to is what is handed on.** An activity that relies on the results of tasks
comes to a result with its postcondition, in every world whose tasks come to such results. -/
theorem Activity.Yields.run {post : α → Prop} {p : Activity α} (h : p.Yields Q post)
    (host : Host σ) {w : World σ} (hw : w.Yields Q) :
    post (p.run host w).1 ∧ (p.run host w).2.Yields Q := by
  induction p generalizing w with
  | done a => exact ⟨h, hw⟩
  | wait n p ih => exact ih h (hw.pass host n)
  | ask c rest ih =>
    have hbefore : (if c.isSlow then w.rest host else w).Yields Q := by
      split
      · exact hw.settle host _ _
      · exact hw
    exact ih _ (h _) (hbefore.answer host c)
  | start limit count task rest _ ih => exact ih _ (h.2 _) (hw.start limit count h.1)
  | join group span rest ih =>
    have hafter := hw.await host group span
    exact ih _ _ (h _ _ fun l hl => hafter.groups.results hl) hafter

end WorkflowGraph
