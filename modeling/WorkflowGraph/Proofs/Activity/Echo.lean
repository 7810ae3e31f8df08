import WorkflowGraph.Proofs.Activity.Pairing
import WorkflowGraph.Proofs.Activity.Past
import WorkflowGraph.Proofs.Activity.Twins

/-!
# Worlds that echo each other

A world echoes another one if it is the same behind a past of its own, as far as those who go on in
them can tell: the tasks under way are the same, and so is all that they know (`Pairing.Echoes`).
The storages may differ in threads that nobody knows, and one of the hosts may remember more. Such
worlds go on side by side, whoever goes on in them (`Pairing.Echoes.settle`), and an activity that
is grounded in what both know comes to the same in both of them (`Pairing.Echoes.run`).

Time counts here, and so does what a timeout leaves behind. Where a thread is forgotten and loaded
again, its store must be in memory, for a store of files would let the tasks under way go on in
between.
-/

set_option autoImplicit false

namespace WorkflowGraph

open Activity

variable {σ τ H α : Type} {P R : Store → Prop} {F : Prop} {known more : String → Prop}

/-! ## What is left of a task -/

/-- Whether an activity that has come to wait is grounded: it goes on by itself, or with the results
of a group. -/
inductive Activity.Resting (P R : Store → Prop) (F : Prop) (known : String → Prop) :
    Activity α → Prop where
  | going {p : Activity α} (h : p.Grounded P R F known fun _ _ => True) : Resting P R F known p
  | joined {group : Nat} {span : Option Nat} {next : Option (List NodeRun) → Nat → Activity α}
    (h : ∀ runs spent, (next runs spent).Grounded P R F known fun _ _ => True) :
    Resting P R F known (.join group span next)

/-- What is grounded does not wait for a group from the start. -/
theorem Activity.Grounded.after_eq {post : α → (String → Prop) → Prop} {p : Activity α}
    (h : p.Grounded P R F known post) (past : Past) : p.after past = p := by
  cases h <;> rfl

namespace Activity.Resting

variable {p : Activity α}

theorem mono (h : p.Resting P R F known) (hknown : ∀ u, known u → more u) :
    p.Resting P R F more := by
  cases h with
  | going h => exact .going (h.mono hknown fun _ _ _ _ _ => trivial)
  | joined h => exact .joined fun runs spent => (h runs spent).mono hknown fun _ _ _ _ _ => trivial

theorem answered (h : p.Resting P R F known) (runs : Option (List NodeRun)) (spent : Nat) :
    (p.answered runs spent).Grounded P R F known fun _ _ => True := by
  cases h with
  | joined h => exact h runs spent
  | going h =>
    have hsame : p.answered runs spent = p := by cases h <;> rfl
    rwa [hsame]

end Activity.Resting

/-- Whether the tasks under way ask for nothing but known threads. -/
def Crew.Grounded (P R : Store → Prop) (F : Prop) (known : String → Prop)
    (strands : List Strand) : Prop :=
  ∀ s ∈ strands, s.rest.Resting P R F known

namespace Crew

variable {strands others : List Strand}

theorem Grounded.mono (h : Grounded P R F known strands) (hknown : ∀ u, known u → more u) :
    Grounded P R F more strands :=
  fun s hs => (h s hs).mono hknown

theorem grounded_append :
    Grounded P R F known (strands ++ others) ↔
      Grounded P R F known strands ∧ Grounded P R F known others := by
  simp only [Grounded, List.mem_append, or_imp, forall_and]

theorem grounded_singleton {s : Strand} :
    Grounded P R F known [s] ↔ s.rest.Resting P R F known :=
  List.forall_mem_singleton

/-- Whether strands are grounded is to be seen of what they do next. -/
theorem grounded_of_trees {strands others : List Strand} (h : Grounded P R F known strands)
    (htrees : Crew.trees others = Crew.trees strands) : Grounded P R F known others := by
  intro s hs
  have hmem : (⟨NodeRun, s.rest⟩ : Activity.Tree) ∈ Crew.trees strands := by
    rw [← htrees]
    exact List.mem_map_of_mem hs
  obtain ⟨t, ht, heq⟩ := List.mem_map.1 hmem
  have hsame : t.rest = s.rest := eq_of_heq (Sigma.mk.inj heq).2
  exact hsame ▸ h t ht

end Crew

/-- How far an activity has come, behind a past. -/
def Activity.Halt.after (past : Past) : Halt α → Halt α
  | .finished a => .finished a
  | .paused span rest => .paused span rest
  | .joined group span rest => .joined (past.group group) span (rest.after past)

/-- Whether what is left of a halted activity asks for nothing but known threads. -/
def Activity.Halt.Grounded (P R : Store → Prop) (F : Prop) (known : String → Prop) : Halt α → Prop
  | .finished _ => True
  | .paused _ rest => rest.Grounded P R F known fun _ _ => True
  | .joined _ _ rest => rest.Resting P R F known

/-- Before a call, a world stays as it is if the call is quick or nothing is under way. -/
theorem World.beforeAnswer_eq {host : Host σ} {w : World σ} {c : Call}
    (h : c.isSlow = false ∨ w.crew.strands = []) :
    (if c.isSlow then w.rest host else w) = w := by
  split
  · next hslow =>
    refine World.rest_of_strands_eq_nil host w (h.resolve_left ?_)
    rw [hslow]
    exact Bool.noConfusion
  · rfl

theorem Activity.run_ask (host : Host σ) {w : World σ} {c : Call} {rest : c.Answer → Activity α}
    (h : c.isSlow = false ∨ w.crew.strands = []) :
    (Activity.ask c rest).run host w =
      (rest (c.answer host w).1).run host (c.answer host w).2 := by
  conv => lhs; unfold Activity.run
  rw [World.beforeAnswer_eq h]

/-! ## Worlds side by side -/

namespace Pairing

variable (E : Pairing σ τ H) (R : Store → Prop) (F : Prop) (past : Past)

/-- Whether a world is another one behind a past, as far as anybody in it can tell. -/
structure Echoes (w : World σ) (v : World τ) : Prop extends E.Twinned w v where
  clock : v.clock = past.clock + w.clock
  crew : v.crew = w.crew.after past
  strands : Crew.Grounded E.stores R F (E.Agreed w.storage v.storage) w.crew.strands

/-- Whether two worlds have come of two others side by side. -/
structure Leads (w : World σ) (v : World τ) (w' : World σ) (v' : World τ) : Prop where
  echoes : E.Echoes R F past w' v'
  storage : Storage.Converge E.held w.storage v.storage w'.storage v'.storage

/-- Whether an activity has come as far in one world as in another one. -/
structure Advanced (w : World σ) (v : World τ) (r : Halt α × World σ) (r' : Halt α × World τ) :
    Prop where
  halt : r'.1 = r.1.after past
  leads : E.Leads R F past w v r.2 r'.2
  rest : r.1.Grounded E.stores R F (E.Agreed r.2.storage r'.2.storage)

/-- Whether an activity has come to the same in two worlds side by side, with a postcondition on the
threads for which they agree then. -/
structure CameTo (post : α → (String → Prop) → Prop) (w : World σ) (v : World τ) (r : α × World σ)
    (r' : α × World τ) : Prop where
  result : r'.1 = r.1
  leads : E.Leads R F past w v r.2 r'.2
  holds : post r.1 (E.Agreed r.2.storage r'.2.storage)

variable {E R F past} {w w' x : World σ} {v v' y : World τ}

theorem Leads.trans (h : E.Leads R F past w v w' v') (h' : E.Leads R F past w' v' x y) :
    E.Leads R F past w v x y :=
  ⟨h'.echoes, h.storage.trans h'.storage⟩

theorem Leads.agreed (h : E.Leads R F past w v w' v')
    (hknown : ∀ u, known u → E.Agreed w.storage v.storage u) :
    ∀ u, known u → E.Agreed w'.storage v'.storage u :=
  fun u hu => h.storage.agreed (hknown u hu)

theorem Leads.advanced (h : E.Leads R F past w v w' v') {r : Halt α × World σ}
    {r' : Halt α × World τ} (h' : E.Advanced R F past w' v' r r') : E.Advanced R F past w v r r' :=
  ⟨h'.halt, h.trans h'.leads, h'.rest⟩

theorem Leads.cameTo (h : E.Leads R F past w v w' v') {post : α → (String → Prop) → Prop}
    {r : α × World σ} {r' : α × World τ} (h' : E.CameTo R F past post w' v' r r') :
    E.CameTo R F past post w v r r' :=
  ⟨h'.result, h.trans h'.leads, h'.holds⟩

namespace Echoes

theorem self (h : E.Echoes R F past w v) : E.Leads R F past w v w v := ⟨h, .refl _ _⟩

/-- A call on a known thread is answered alike. -/
theorem answer (h : E.Echoes R F past w v) {c : Call}
    (hc : c.On fun store thread => E.stores store ∧ thread ≠ "" ∧ known thread)
    (hknown : ∀ u, known u → E.Agreed w.storage v.storage u) :
    (c.answer E.other v).1 = (c.answer E.host w).1 ∧
      E.Leads R F past w v (c.answer E.host w).2 (c.answer E.other v).2 := by
  obtain ⟨hsame, htwinned, hconverge⟩ := h.toTwinned.answer hc hknown
  refine ⟨hsame, ⟨htwinned, ?_, ?_, ?_⟩, hconverge⟩
  · rw [c.clock_answer, c.clock_answer, h.clock]
  · rw [c.crew_answer, c.crew_answer, h.crew]
  · rw [c.crew_answer]
    exact h.strands.mono fun u hu => hconverge.agreed hu

/-- A thread that is forgotten is known then. -/
theorem forget (h : E.Echoes R F past w v) {store : Store} (hstore : E.stores store)
    {thread : String} (hthread : thread ≠ "")
    (hknown : ∀ u, known u → E.Agreed w.storage v.storage u) :
    ((store.delete w.storage thread).1 = .ok () ∧ (store.delete v.storage thread).1 = .ok ()) ∧
      (store.load (store.delete w.storage thread).2 thread = .ok none ∧
        store.load (store.delete v.storage thread).2 thread = .ok none) ∧
      E.Leads R F past w v { w with storage := (store.delete w.storage thread).2 }
        { v with storage := (store.delete v.storage thread).2 } ∧
      ∀ u, u = thread ∨ known u →
        E.Agreed (store.delete w.storage thread).2 (store.delete v.storage thread).2 u := by
  obtain ⟨hdone, hgone, htwinned, hconverge, hanew⟩ := h.toTwinned.forget hstore hthread
  refine ⟨hdone, hgone, ⟨⟨htwinned, h.clock, h.crew, ?_⟩, hconverge⟩, ?_⟩
  · exact h.strands.mono fun u hu => hconverge.agreed hu
  · rintro u (rfl | hu)
    · exact hanew
    · exact hconverge.agreed (hknown u hu)

/-- The same tasks are started, in groups that stand behind those of the past. -/
theorem start (h : E.Echoes R F past w v) (limit : Nat) {count : Nat}
    {task : Fin count → Activity NodeRun}
    (htask : ∀ i, (task i).Grounded E.stores R F known fun _ _ => True)
    (hknown : ∀ u, known u → E.Agreed w.storage v.storage u) :
    (v.crew.start v.clock limit count task).1 =
        past.group (w.crew.start w.clock limit count task).1 ∧
      E.Leads R F past w v { w with crew := (w.crew.start w.clock limit count task).2 }
        { v with crew := (v.crew.start v.clock limit count task).2 } := by
  have hsame := Crew.start_after past w.crew w.clock limit fun i => (htask i).after_eq past
  rw [← h.clock, ← h.crew] at hsame
  rw [hsame]
  refine ⟨rfl, ⟨⟨h.like, h.sound, h.sound'⟩, h.clock, rfl, fun s hs => ?_⟩, .refl _ _⟩
  rcases List.mem_append.1 hs with hs | hs
  · exact h.strands s hs
  · obtain ⟨i, rfl⟩ := List.mem_ofFn.1 hs
    exact .going ((htask i).mono hknown fun _ _ _ _ _ => trivial)

theorem results? (h : E.Echoes R F past w v) (group : Nat) :
    v.crew.results? (past.group group) = w.crew.results? group := by
  rw [h.crew, Crew.results?_after]

/-- **A task goes on in the same way.** By induction on what it does. -/
theorem advance {post : α → (String → Prop) → Prop} (h : E.Echoes R F past w v) {p : Activity α}
    (hp : p.Grounded E.stores R F known post)
    (hknown : ∀ u, known u → E.Agreed w.storage v.storage u) :
    E.Advanced R F past w v (p.advance E.host w) (p.advance E.other v) := by
  induction hp generalizing w v with
  | done _ => exact ⟨rfl, h.self, trivial⟩
  | @wait _ _ _ span rest hrest ih =>
    unfold Activity.advance
    split
    · exact ih h hknown
    · exact ⟨rfl, h.self, (hrest.weaken fun _ _ _ => trivial).mono hknown fun _ _ _ _ _ => trivial⟩
  | ask hcall _ ih =>
    obtain ⟨hsame, hleads⟩ := h.answer hcall hknown
    unfold Activity.advance
    dsimp only
    rw [hsame]
    exact hleads.advanced (ih _ hleads.echoes (hleads.agreed hknown))
  | @renew _ _ _ store thread rest further hstore hthread hload _ ih =>
    obtain ⟨⟨hdone, hdone'⟩, ⟨hgone, hgone'⟩, hleads, hthen⟩ := h.forget hstore.1 hthread hknown
    have hturn {σ : Type} (host : Host σ) (w : World σ)
        (hdone : (store.delete w.storage thread).1 = .ok ())
        (hgone : store.load (store.delete w.storage thread).2 thread = .ok none) :
        (Activity.ask (.delete store thread) rest).advance host w =
          (further (.ok none)).advance host
            { w with storage := (store.delete w.storage thread).2 } := by
      show (rest (store.delete w.storage thread).1).advance host
        { w with storage := (store.delete w.storage thread).2 } = _
      rw [hdone, hload]
      show (further (store.load (store.delete w.storage thread).2 thread)).advance host
        { w with storage := (store.delete w.storage thread).2 } = _
      rw [hgone]
    rw [hturn E.host w hdone hgone, hturn E.other v hdone' hgone']
    exact hleads.advanced (ih hleads.echoes hthen)
  | @fork _ _ _ limit count task span next _ htask hnext _ ih =>
    obtain ⟨hgroup, hleads⟩ := h.start limit htask hknown
    have hlater := hleads.agreed hknown
    unfold Activity.advance
    dsimp only
    rw [hgroup]
    unfold Activity.advance
    rw [hleads.echoes.results?]
    split
    · exact hleads.advanced (ih _ _ hleads.echoes hlater)
    · split
      · exact hleads.advanced (ih _ _ hleads.echoes hlater)
      · refine ⟨rfl, hleads, .joined fun runs spent => ?_⟩
        exact ((hnext runs spent).weaken fun _ _ _ => trivial).mono hlater fun _ _ _ _ _ => trivial

theorem advance_resting (h : E.Echoes R F past w v) {p : Activity α}
    (hp : p.Resting E.stores R F (E.Agreed w.storage v.storage)) :
    E.Advanced R F past w v (p.advance E.host w) ((p.after past).advance E.other v) := by
  cases hp with
  | going hp =>
    rw [hp.after_eq]
    exact h.advance hp fun _ hu => hu
  | joined hnext =>
    unfold Activity.after Activity.advance
    rw [h.results?]
    split
    · exact h.advance (hnext _ _) fun _ hu => hu
    · split
      · exact h.advance (hnext _ _) fun _ hu => hu
      · exact ⟨rfl, h.self, .joined hnext⟩

/-- The strands are only changed where they are put. -/
theorem put (h : E.Echoes R F past w v) {front strands back : List Strand}
    (hfront : Crew.Grounded E.stores R F (E.Agreed w.storage v.storage) front)
    (hstrands : Crew.Grounded E.stores R F (E.Agreed w.storage v.storage) strands)
    (hback : Crew.Grounded E.stores R F (E.Agreed w.storage v.storage) back) :
    E.Echoes R F past (w.put front strands back)
      (v.put (front.map (Strand.after past)) (strands.map (Strand.after past))
        (back.map (Strand.after past))) := by
  refine ⟨⟨h.like, h.sound, h.sound'⟩, h.clock, ?_, ?_⟩
  · unfold World.put
    rw [h.crew]
    unfold Crew.after
    dsimp only
    rw [List.map_append, List.map_append]
  · exact Crew.grounded_append.2 ⟨Crew.grounded_append.2 ⟨hfront, hstrands⟩, hback⟩

/-- A strand between others waits for something. -/
theorem park (h : E.Echoes R F past w v) {front back : List Strand} (s : Strand)
    (hfront : Crew.Grounded E.stores R F (E.Agreed w.storage v.storage) front)
    (hback : Crew.Grounded E.stores R F (E.Agreed w.storage v.storage) back) (stage : Stage)
    {rest : Activity NodeRun} (hrest : rest.Resting E.stores R F (E.Agreed w.storage v.storage)) :
    E.Echoes R F past
      (World.put { w with crew := { w.crew with count := w.crew.count + 1 } } front
        (w.crew.strands ++ [{ s with stage, rest }]) back)
      (World.put { v with crew := { v.crew with count := v.crew.count + 1 } }
        (front.map (Strand.after past))
        (v.crew.strands ++
          [{ s.after past with stage := stage.after past, rest := rest.after past }])
        (back.map (Strand.after past))) := by
  have hnoted : E.Echoes R F past { w with crew := { w.crew with count := w.crew.count + 1 } }
      { v with crew := { v.crew with count := v.crew.count + 1 } } := by
    refine ⟨⟨h.like, h.sound, h.sound'⟩, h.clock, ?_, h.strands⟩
    rw [h.crew]
    rfl
  have hlast : Crew.Grounded E.stores R F (E.Agreed w.storage v.storage) [{ s with stage, rest }] :=
    Crew.grounded_singleton.2 hrest
  have hput := hnoted.put hfront (Crew.grounded_append.2 ⟨h.strands, hlast⟩) hback
  rw [List.map_append] at hput
  rw [h.crew]
  rw [h.crew] at hput
  exact hput

theorem goOn (h : E.Echoes R F past w v) {front back : List Strand} {s : Strand}
    {p : Activity NodeRun}
    (hfront : Crew.Grounded E.stores R F (E.Agreed w.storage v.storage) front)
    (hback : Crew.Grounded E.stores R F (E.Agreed w.storage v.storage) back)
    (hp : p.Resting E.stores R F (E.Agreed w.storage v.storage)) :
    E.Leads R F past w v (w.goOn E.host front s back p)
      (v.goOn E.other (front.map (Strand.after past)) (s.after past)
        (back.map (Strand.after past)) (p.after past)) := by
  have hempty : E.Echoes R F past (w.put [] [] []) (v.put [] [] []) :=
    h.put (fun _ hs => nomatch hs) (fun _ hs => nomatch hs) fun _ hs => nomatch hs
  obtain ⟨hhalt, ⟨hafter, hstorage⟩, hrest⟩ := hempty.advance_resting hp
  unfold World.goOn
  generalize p.advance E.host (w.put [] [] []) = r at hhalt hafter hstorage hrest
  generalize (p.after past).advance E.other (v.put [] [] []) = r' at hhalt hafter hstorage hrest
  obtain ⟨halt, w'⟩ := r
  obtain ⟨halt', v'⟩ := r'
  dsimp only at hhalt hafter hstorage hrest
  subst hhalt
  have hagreed (u : String) (hu : E.Agreed w.storage v.storage u) :
      E.Agreed w'.storage v'.storage u := hstorage.agreed hu
  have hfront' := hfront.mono hagreed
  have hback' := hback.mono hagreed
  cases halt with
  | finished run =>
    have hput := hafter.put hfront' hafter.strands hback'
    refine ⟨⟨⟨hput.like, hput.sound, hput.sound'⟩, hput.clock, ?_, ?_⟩, hstorage⟩
    · have hfinish := (w'.put front w'.crew.strands back).crew.finish_after past w'.clock s.group
        s.index run
      rw [← hput.crew, ← hafter.clock] at hfinish
      refine Eq.trans ?_ hfinish
      show Crew.finish (World.put v' _ v'.crew.strands _).crew _ _ _ _ = _
      rw [hafter.crew]
      rfl
    · exact Crew.grounded_of_trees hput.strands (Crew.trees_finish _ _ _ _ _)
  | paused span rest =>
    have hpark := hafter.park s hfront' hback' (.due ⟨w'.clock + span, w'.crew.count⟩ true)
      (.going hrest)
    rw [hrest.after_eq] at hpark
    refine ⟨?_, hstorage⟩
    have hturn : Stage.after past (.due ⟨w'.clock + span, w'.crew.count⟩ true) =
        .due ⟨v'.clock + span, v'.crew.count⟩ true := by
      rw [hafter.clock, hafter.crew, Nat.add_assoc]
      rfl
    rw [hturn] at hpark
    exact hpark
  | joined group span rest =>
    have hpark := hafter.park s hfront' hback'
      (.joined group w'.clock (span.map fun n => ⟨w'.clock + n, w'.crew.count⟩) none) hrest
    refine ⟨?_, hstorage⟩
    have halarm : (span.map fun n => (⟨w'.clock + n, w'.crew.count⟩ : Turn)).map (Turn.after past) =
        span.map fun n => ⟨v'.clock + n, v'.crew.count⟩ := by
      rw [Option.map_map, hafter.clock, hafter.crew]
      cases span with
      | none => rfl
      | some n => exact congrArg (fun m => some (Turn.mk m _)) (Nat.add_assoc _ _ _).symm
    rw [Stage.after, halarm, ← hafter.clock] at hpark
    exact hpark

theorem turn (h : E.Echoes R F past w v) {front back : List Strand} {s : Strand}
    (hs : w.crew.strands = front ++ s :: back) :
    E.Leads R F past w v (w.turn E.host front s back)
      (v.turn E.other (front.map (Strand.after past)) (s.after past)
        (back.map (Strand.after past))) := by
  have hstrands := h.strands
  rw [hs, ← List.singleton_append, Crew.grounded_append, Crew.grounded_append,
    Crew.grounded_singleton] at hstrands
  obtain ⟨hfront, hrest, hback⟩ := hstrands
  have honward := h.goOn (s := s) hfront hback hrest
  have hanswered (runs : Option (List NodeRun)) (spent : Nat) :
      E.Leads R F past w v (w.goOn E.host front s back (s.rest.answered runs spent))
        (v.goOn E.other (front.map (Strand.after past)) (s.after past)
          (back.map (Strand.after past)) ((s.rest.after past).answered runs spent)) := by
    have hgrounded := hrest.answered runs spent
    have honward := h.goOn (s := s) hfront hback (.going hgrounded)
    rw [hgrounded.after_eq] at honward
    rw [Activity.answered_after]
    exact honward
  have hsame (stage : Stage) : E.Leads R F past w v (w.put front [{ s with stage }] back)
      (v.put (front.map (Strand.after past)) [{ s.after past with stage := stage.after past }]
        (back.map (Strand.after past))) :=
    ⟨h.put hfront (Crew.grounded_singleton.2 hrest) hback, .refl _ _⟩
  unfold World.turn
  cases hstage : s.stage with
  | due turn begun =>
    have hstage' : (s.after past).stage = .due (turn.after past) begun := by
      unfold Strand.after
      rw [hstage]
      rfl
    rw [hstage']
    cases begun with
    | true => exact honward
    | false =>
      have hplace : v.crew.hasPlace (s.after past).group = w.crew.hasPlace s.group := by
        rw [h.crew]
        exact Crew.hasPlace_after past w.crew s.group
      dsimp only
      rw [hplace]
      split
      · have htaken : E.Echoes R F past { w with crew := w.crew.takePlace s.group }
            { v with crew := v.crew.takePlace (s.after past).group } := by
          refine ⟨⟨h.like, h.sound, h.sound'⟩, h.clock, ?_, h.strands⟩
          rw [h.crew]
          exact Crew.takePlace_after past w.crew s.group
        obtain ⟨hechoes, hstorage⟩ := htaken.goOn (s := s) hfront hback hrest
        exact ⟨hechoes, hstorage⟩
      · exact hsame .held
  | held =>
    have hstage' : (s.after past).stage = .held := by
      unfold Strand.after
      rw [hstage]
      rfl
    rw [hstage']
    exact h.self
  | joined group since alarm woken =>
    have hstage' : (s.after past).stage = .joined (past.group group) (past.clock + since)
        (alarm.map (Turn.after past)) (woken.map (Turn.after past)) := by
      unfold Strand.after
      rw [hstage]
      rfl
    have hspent : v.clock - (past.clock + since) = w.clock - since := by
      rw [h.clock, Nat.add_sub_add_left]
    have hcome : (Turn.come? v.clock (alarm.map (Turn.after past))).isSome =
        (Turn.come? w.clock alarm).isSome := by
      rw [h.clock, Turn.come?_after, Option.isSome_map]
    rw [hstage']
    dsimp only
    rw [h.results?, hspent, hcome]
    split
    · exact hanswered _ _
    · split
      · exact hanswered _ _
      · exact hsame (.joined group since alarm none)

theorem pick?_eq (h : E.Echoes R F past w v) :
    Crew.pick? v.clock v.crew.strands = (Crew.pick? w.clock w.crew.strands).map fun r =>
      (r.1.map (Strand.after past), r.2.1.after past, r.2.2.map (Strand.after past)) := by
  rw [h.clock, h.crew]
  exact Crew.pick?_after past w.clock w.crew.strands

theorem next?_eq (h : E.Echoes R F past w v) :
    Crew.next? v.clock v.crew.strands =
      (Crew.next? w.clock w.crew.strands).map (past.clock + ·) := by
  rw [h.clock, h.crew]
  exact Crew.next?_after past w.clock w.crew.strands

theorem atClock (h : E.Echoes R F past w v) (clock : Nat) :
    E.Leads R F past w v { w with clock } { v with clock := past.clock + clock } :=
  ⟨⟨⟨h.like, h.sound, h.sound'⟩, rfl, h.crew, h.strands⟩, .refl _ _⟩

/-- **The tasks under way go on side by side.** By induction on what is left of them. -/
theorem settle (h : E.Echoes R F past w v) (goal limit : Option Nat) :
    E.Leads R F past w v (w.settle E.host goal limit)
      (v.settle E.other (goal.map past.group) (limit.map (past.clock + ·))) := by
  have hgoal {w : World σ} {v : World τ} (h : E.Echoes R F past w v) :
      ((goal.map past.group).any fun group => (v.crew.results? group).isSome) =
        goal.any fun group => (w.crew.results? group).isSome := by
    cases goal with
    | none => rfl
    | some group => exact congrArg Option.isSome (h.results? group)
  have hclock {w : World σ} {v : World τ} (h : E.Echoes R F past w v) :
      E.Leads R F past w v { w with clock := limit.getD w.clock }
        { v with clock := (limit.map (past.clock + ·)).getD v.clock } := by
    have hlimit : (limit.map (past.clock + ·)).getD v.clock =
        past.clock + limit.getD w.clock := by
      rw [h.clock]
      cases limit <;> rfl
    rw [hlimit]
    exact h.atClock _
  fun_induction World.settle E.host goal limit w generalizing v with
  | case1 w front s back hp ih =>
    have hturn := h.turn (Crew.pick?_eq_some hp).1
    rw [World.settle_eq E.other, h.pick?_eq, hp]
    exact hturn.trans (ih hturn.echoes)
  | case2 w hp hreached =>
    rw [World.settle_eq E.other, h.pick?_eq, hp]
    dsimp only [Option.map_none]
    rw [hgoal h, if_pos hreached]
    exact h.self
  | case3 w hp hreached later hn hlimit =>
    rw [World.settle_eq E.other, h.pick?_eq, hp]
    dsimp only [Option.map_none]
    rw [hgoal h, if_neg hreached, h.next?_eq, hn]
    dsimp only [Option.map_some]
    rw [if_pos]
    · exact hclock h
    · rw [Option.any_map]
      simpa using hlimit
  | case4 w hp hreached later hn hlimit ih =>
    have hlater := h.atClock later
    rw [World.settle_eq E.other, h.pick?_eq, hp]
    dsimp only [Option.map_none]
    rw [hgoal h, if_neg hreached, h.next?_eq, hn]
    dsimp only [Option.map_some]
    rw [if_neg]
    · exact hlater.trans (ih hlater.echoes)
    · rw [Option.any_map]
      simpa using hlimit
  | case5 w hp hreached hn =>
    rw [World.settle_eq E.other, h.pick?_eq, hp]
    dsimp only [Option.map_none]
    rw [hgoal h, if_neg hreached, h.next?_eq, hn]
    exact hclock h

theorem pass (h : E.Echoes R F past w v) (span : Nat) :
    E.Leads R F past w v (w.pass E.host span) (v.pass E.other span) := by
  unfold World.pass
  split
  · exact h.self
  · have hsettle := h.settle none (some (w.clock + span))
    rw [h.clock, Nat.add_assoc]
    exact hsettle

theorem rest (h : E.Echoes R F past w v) :
    E.Leads R F past w v (w.rest E.host) (v.rest E.other) := by
  have hsettle := h.settle none (some w.clock)
  unfold World.rest
  rw [h.clock]
  exact hsettle

theorem await (h : E.Echoes R F past w v) (group : Nat) (span : Option Nat) :
    E.Leads R F past w v (w.await E.host group span) (v.await E.other (past.group group) span) := by
  unfold World.await
  rw [h.results?]
  split
  · exact h.self
  · have hsettle := h.settle (some group) (span.map (w.clock + ·))
    rw [Option.map_map] at hsettle
    have hspan : span.map (v.clock + ·) = span.map ((past.clock + ·) ∘ (w.clock + ·)) := by
      rw [h.clock]
      cases span with
      | none => rfl
      | some n => exact congrArg some (Nat.add_assoc _ _ _)
    rw [hspan]
    exact hsettle

/-- **What is grounded comes to the same in worlds that echo each other**, and with the same
postcondition, and leaves such worlds. By induction on the activity. -/
theorem run {post : α → (String → Prop) → Prop} (h : E.Echoes R F past w v) {p : Activity α}
    (hp : p.Grounded E.stores R F known post) (hquick : ∀ store, R store → store = .memory ∨ ¬ F)
    (hidle : F ∨ w.crew.strands = [])
    (hknown : ∀ u, known u → E.Agreed w.storage v.storage u)
    (hmono : ∀ a (k l : String → Prop), (∀ u, k u → l u) → post a k → post a l) :
    E.CameTo R F past post w v (p.run E.host w) (p.run E.other v) := by
  induction hp generalizing w v with
  | done ha => exact ⟨rfl, h.self, hmono _ _ _ hknown ha⟩
  | @wait _ _ _ span rest _ ih =>
    have hpass := h.pass span
    refine hpass.cameTo (ih hpass.echoes (hidle.imp_right fun hw => ?_) (hpass.agreed hknown) hmono)
    rw [World.pass_of_strands_eq_nil _ _ _ hw]
    exact hw
  | @ask _ _ _ c rest hcall _ ih =>
    have hrest : E.Leads R F past w v (if c.isSlow then w.rest E.host else w)
        (if c.isSlow then v.rest E.other else v) := by
      split
      · exact h.rest
      · exact h.self
    obtain ⟨hsame, hanswer⟩ := hrest.echoes.answer hcall (hrest.agreed hknown)
    have hleads := hrest.trans hanswer
    have hstill :
        F ∨ (c.answer E.host (if c.isSlow then w.rest E.host else w)).2.crew.strands = [] :=
      hidle.imp_right fun hw => by rw [c.crew_answer, World.beforeAnswer_eq (.inr hw), hw]
    unfold Activity.run
    dsimp only
    rw [hsame]
    exact hleads.cameTo (ih _ hleads.echoes hstill (hleads.agreed hknown) hmono)
  | @renew _ _ _ store thread rest further hstore hthread hload _ ih =>
    obtain ⟨⟨hdone, hdone'⟩, ⟨hgone, hgone'⟩, hleads, hthen⟩ := h.forget hstore.1 hthread hknown
    -- Nobody goes on between the two calls: the store is quick, or nobody else is under way.
    have hturn {σ : Type} (host : Host σ) {w : World σ}
        (hbefore : store = .memory ∨ w.crew.strands = [])
        (hdone : (store.delete w.storage thread).1 = .ok ())
        (hgone : store.load (store.delete w.storage thread).2 thread = .ok none) :
        (Activity.ask (.delete store thread) rest).run host w =
          (further (.ok none)).run host
            { w with storage := (store.delete w.storage thread).2 } := by
      have hdelete : (Call.delete store thread).isSlow = false ∨ w.crew.strands = [] :=
        hbefore.imp_left fun hmemory => by
          rw [hmemory]
          rfl
      have hfound : (Call.load store thread).isSlow = false ∨ w.crew.strands = [] :=
        hbefore.imp_left fun hmemory => by
          rw [hmemory]
          rfl
      rw [Activity.run_ask host hdelete]
      show (rest (store.delete w.storage thread).1).run host
        { w with storage := (store.delete w.storage thread).2 } = _
      rw [hdone, hload, Activity.run_ask host (by exact hfound)]
      show (further (store.load (store.delete w.storage thread).2 thread)).run host
        { w with storage := (store.delete w.storage thread).2 } = _
      rw [hgone]
    have hbefore : store = .memory ∨ w.crew.strands = [] :=
      (hquick store hstore.2).imp_right hidle.resolve_left
    have hbefore' : store = .memory ∨ v.crew.strands = [] := hbefore.imp_right fun hw => by
      rw [h.crew]
      exact List.map_eq_nil_iff.2 hw
    rw [hturn E.host hbefore hdone hgone, hturn E.other hbefore' hdone' hgone']
    exact hleads.cameTo (ih hleads.echoes hidle hthen hmono)
  | @fork _ _ _ limit count task span next hfork htask _ _ ih =>
    obtain ⟨hgroup, hstart⟩ := h.start limit htask hknown
    have hawait := hstart.echoes.await (w.crew.start w.clock limit count task).1 span
    have hleads := hstart.trans hawait
    have hspent (n : Nat) : past.clock + n - v.clock = n - w.clock := by
      rw [h.clock, Nat.add_sub_add_left]
    unfold Activity.run
    dsimp only
    rw [hgroup]
    unfold Activity.run
    dsimp only
    rw [hawait.echoes.results?, hawait.echoes.clock, hspent]
    exact hleads.cameTo (ih _ _ hleads.echoes (.inl hfork) (hleads.agreed hknown) hmono)

end Echoes

end Pairing

end WorkflowGraph
