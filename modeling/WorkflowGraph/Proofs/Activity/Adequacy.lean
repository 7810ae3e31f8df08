import WorkflowGraph.Proofs.Activity.Meets

/-!
# What activities meet holds when they are carried out

A regime speaks of states, and an activity is carried out in a world with a clock, a storage and
tasks under way. A view relates the storage to the state that is seen in it. Where calls are
answered as the regime says, and the calls of tasks change nothing that is seen, tasks may go on
at any time without being noticed (`Shows.settle`), and an activity that meets a postcondition
comes to a result that satisfies it (`Meets.run`).
-/

set_option autoImplicit false

namespace WorkflowGraph

open Activity

variable {σ α M : Type} {R : Regime M} {view : Storage → M → Prop}

/-- Whether calls are answered as a regime says, seen through a view. -/
structure Activity.Regime.SeenThrough (R : Regime M) (view : Storage → M → Prop) : Prop where
  allowed : ∀ {σ : Type} (h : Host σ) (w : World σ) (m : M) (c : Call), view w.storage m →
    R.allows m c → ∃ k, R.answers m c (c.answer h w).1 k ∧ view (c.answer h w).2.storage k
  unnoticed : ∀ {σ : Type} (h : Host σ) (w : World σ) (m : M) (c : Call), view w.storage m →
    R.background c → view (c.answer h w).2.storage m

theorem Activity.Regime.SeenThrough.only (h : R.SeenThrough view) (P : Call → Prop) :
    (R.only P).SeenThrough view where
  allowed host w m c hview hc := h.allowed host w m c hview hc.1
  unnoticed host w m c hview hc := h.unnoticed host w m c hview hc

/-- Whether an activity, whatever it comes to, makes only calls that are not noticed. -/
def Activity.Unnoticed (R : Regime M) (t : Activity.Tree) : Prop :=
  t.2.Obeys R.background fun _ => True

/-- Whether a world shows a state: its storage does, and none of its tasks will be noticed. -/
structure World.Shows (R : Regime M) (view : Storage → M → Prop) (w : World σ) (m : M) :
    Prop where
  view : view w.storage m
  crew : ∀ t ∈ Crew.trees w.crew.strands, Unnoticed R t

namespace World.Shows

theorem congr {v w : World σ} {m : M} (h : w.Shows R view m) (hstorage : v.storage = w.storage)
    (hcrew : Crew.trees v.crew.strands = Crew.trees w.crew.strands) : v.Shows R view m := by
  refine ⟨?_, ?_⟩
  · rw [hstorage]
    exact h.view
  · rw [hcrew]
    exact h.crew

theorem only {w : World σ} {m : M} (h : w.Shows R view m) (P : Call → Prop) :
    w.Shows (R.only P) view m :=
  ⟨h.view, h.crew⟩

theorem of_answer {h : Host σ} {w : World σ} {m k : M} {c : Call} (hw : w.Shows R view m)
    (hview : view (c.answer h w).2.storage k) : (c.answer h w).2.Shows R view k := by
  refine ⟨hview, ?_⟩
  rw [c.crew_answer]
  exact hw.crew

theorem answer {h : Host σ} {w : World σ} {m : M} {c : Call} (hR : R.SeenThrough view)
    (hw : w.Shows R view m) (hc : R.background c) : (c.answer h w).2.Shows R view m :=
  hw.of_answer (hR.unnoticed h w m c hw.view hc)

theorem start {w : World σ} {m : M} {limit count : Nat} {task : Fin count → Activity NodeRun}
    (hw : w.Shows R view m) (htask : ∀ i, Unnoticed R ⟨NodeRun, task i⟩) :
    World.Shows R view { w with crew := (w.crew.start w.clock limit count task).2 } m := by
  refine ⟨hw.view, ?_⟩
  intro t ht
  simp only [Crew.start, Crew.trees_append, List.mem_append] at ht
  rcases ht with ht | ht
  · exact hw.crew t ht
  · simp only [Crew.trees, List.mem_map, List.mem_ofFn] at ht
    obtain ⟨s, ⟨i, rfl⟩, rfl⟩ := ht
    exact htask i

/-! ## Tasks that go on are not noticed -/

/-- Whether what is left of a halted activity will not be noticed. -/
def HaltUnnoticed (R : Regime M) : Halt α → Prop
  | .finished _ => True
  | .paused _ rest => Unnoticed R ⟨α, rest⟩
  | .joined _ _ rest => Unnoticed R ⟨α, rest⟩

theorem advance (h : Host σ) {w : World σ} {m : M} (hR : R.SeenThrough view) {p : Activity α}
    (hw : w.Shows R view m) (hp : Unnoticed R ⟨α, p⟩) :
    (p.advance h w).2.Shows R view m ∧ HaltUnnoticed R (p.advance h w).1 := by
  induction p generalizing w with
  | done a => exact ⟨hw, trivial⟩
  | wait n p ih =>
    unfold Activity.advance
    split
    · exact ih hw hp
    · exact ⟨hw, hp⟩
  | ask c rest ih => exact ih _ (hw.answer hR hp.1) (hp.2 _)
  | start limit count task rest _ ih => exact ih _ (hw.start hp.1) (hp.2 _)
  | join g span rest ih =>
    unfold Activity.advance
    split
    · exact ih _ _ hw (hp _ _)
    · split
      · exact ih _ _ hw (hp _ _)
      · exact ⟨hw, hp⟩

/-- A strand between others goes on without being noticed. -/
theorem goOn (h : Host σ) {w : World σ} {m : M} (hR : R.SeenThrough view)
    {front back : List Strand} {s : Strand} {p : Activity NodeRun} (hview : view w.storage m)
    (hfront : ∀ t ∈ Crew.trees front, Unnoticed R t)
    (hback : ∀ t ∈ Crew.trees back, Unnoticed R t) (hp : Unnoticed R ⟨NodeRun, p⟩) :
    (w.goOn h front s back p).Shows R view m := by
  have hempty : (w.put [] [] []).Shows R view m := ⟨hview, by simp [World.put, Crew.trees]⟩
  obtain ⟨hw, hhalt⟩ := hempty.advance h hR hp
  have hall {strands : List Strand} (hs : ∀ t ∈ Crew.trees strands, Unnoticed R t) :
      ∀ t ∈ Crew.trees (front ++ strands ++ back), Unnoticed R t := by
    intro t ht
    simp only [Crew.trees_append, List.mem_append] at ht
    rcases ht with (ht | ht) | ht
    · exact hfront t ht
    · exact hs t ht
    · exact hback t ht
  have hone {strand : Strand} (hs : Unnoticed R ⟨NodeRun, strand.rest⟩) :
      ∀ t ∈ Crew.trees ((p.advance h (w.put [] [] [])).2.crew.strands ++ [strand]),
        Unnoticed R t := by
    intro t ht
    simp only [Crew.trees_append, List.mem_append] at ht
    rcases ht with ht | ht
    · exact hw.crew t ht
    · obtain rfl := List.mem_singleton.1 ht
      exact hs
  unfold World.goOn
  cases hh : (p.advance h (w.put [] [] [])).1 with
  | finished run =>
    simp only [hh]
    refine ⟨hw.view, ?_⟩
    rw [Crew.trees_finish]
    exact hall hw.crew
  | paused n rest =>
    simp only [hh]
    rw [hh] at hhalt
    exact ⟨hw.view, hall (hone hhalt)⟩
  | joined group n rest =>
    simp only [hh]
    rw [hh] at hhalt
    exact ⟨hw.view, hall (hone hhalt)⟩

/-- A strand between others takes its turn without being noticed. -/
theorem turn (h : Host σ) {w : World σ} {m : M} (hR : R.SeenThrough view)
    {front back : List Strand} {s : Strand} (hw : w.Shows R view m)
    (hs : w.crew.strands = front ++ s :: back) : (w.turn h front s back).Shows R view m := by
  have hcrew := hw.crew
  rw [hs] at hcrew
  simp only [Crew.trees_append, Crew.trees_cons, List.mem_append, List.mem_cons] at hcrew
  have hfront (t : Activity.Tree) (ht : t ∈ Crew.trees front) := hcrew t (.inl ht)
  have hback (t : Activity.Tree) (ht : t ∈ Crew.trees back) := hcrew t (.inr (.inr ht))
  have hrest : Unnoticed R ⟨NodeRun, s.rest⟩ := hcrew _ (.inr (.inl rfl))
  have hanswered (runs : Option (List NodeRun)) (spent : Nat) :
      Unnoticed R ⟨NodeRun, s.rest.answered runs spent⟩ := by
    unfold Activity.answered
    split
    · next hjoin =>
      rw [hjoin] at hrest
      exact hrest runs spent
    · exact hrest
  have hsame (stage : Stage) : (w.put front [{ s with stage }] back).Shows R view m := by
    refine hw.congr ?_ ?_
    · rfl
    · rw [hs]
      simp [World.put, Crew.trees]
  unfold World.turn
  split
  · exact goOn h hR hw.view hfront hback hrest
  · split
    · exact goOn h hR hw.view hfront hback hrest
    · exact hsame _
  · exact hw
  · split
    · exact goOn h hR hw.view hfront hback (hanswered _ _)
    · split
      · exact goOn h hR hw.view hfront hback (hanswered _ _)
      · exact hsame _

theorem settle (h : Host σ) {w : World σ} {m : M} (hR : R.SeenThrough view)
    (goal limit : Option Nat) (hw : w.Shows R view m) :
    (w.settle h goal limit).Shows R view m := by
  have hclock {v : World σ} {m : M} (hv : v.Shows R view m) (clock : Nat) :
      World.Shows R view { v with clock } m := ⟨hv.view, hv.crew⟩
  fun_induction World.settle with
  | case1 w front s back hp ih => exact ih (hw.turn h hR (Crew.pick?_eq_some hp).1)
  | case2 w _ _ => exact hw
  | case3 w _ _ _ _ _ => exact hclock hw _
  | case4 w _ _ _ _ _ ih => exact ih (hclock hw _)
  | case5 w _ _ _ => exact hclock hw _

theorem pass (h : Host σ) {w : World σ} {m : M} (hR : R.SeenThrough view) (span : Nat)
    (hw : w.Shows R view m) : (w.pass h span).Shows R view m := by
  unfold World.pass
  split
  · exact hw
  · exact hw.settle h hR _ _

theorem await (h : Host σ) {w : World σ} {m : M} (hR : R.SeenThrough view) (group : Nat)
    (span : Option Nat) (hw : w.Shows R view m) : (w.await h group span).Shows R view m := by
  unfold World.await
  split
  · exact hw
  · exact hw.settle h hR _ _

theorem beforeAnswer (h : Host σ) {w : World σ} {m : M} (hR : R.SeenThrough view) (c : Call)
    (hw : w.Shows R view m) : (if c.isSlow then w.rest h else w).Shows R view m := by
  split
  · exact hw.settle h hR _ _
  · exact hw

end World.Shows

/-! ## Carrying out an activity -/

/-- **Adequacy.** An activity that meets a postcondition in a state that a world shows comes to a
result with the postcondition when it is carried out there. -/
theorem Activity.Meets.run {inv : M → Prop} {post : α → M → Prop} {p : Activity α} {m : M}
    (h : p.Meets R inv post m) (host : Host σ) {w : World σ} (hR : R.SeenThrough view)
    (hw : w.Shows R view m) :
    ∃ k, (p.run host w).2.Shows R view k ∧ post (p.run host w).1 k := by
  induction p generalizing w m with
  | done a => exact ⟨m, hw, h⟩
  | wait n p ih => exact ih h.2 (hw.pass host hR n)
  | ask c rest ih =>
    have hw := hw.beforeAnswer host hR c
    obtain ⟨k, hk, hview⟩ := hR.allowed host _ m c hw.view h.1
    exact ih _ (h.2 _ k hk) (hw.of_answer hview)
  | start limit count task rest _ ih => exact ih _ (h.2 _) (hw.start h.1)
  | join group span rest ih => exact ih _ _ (h.2 _ _) (hw.await host hR group span)

end WorkflowGraph
