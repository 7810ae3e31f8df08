import WorkflowGraph.Proofs.Activity.Confluence
import WorkflowGraph.Proofs.Activity.Oblivious
import WorkflowGraph.Proofs.Activity.Seating
import WorkflowGraph.Proofs.Activity.Yields

/-!
# Activities in two storages

What is oblivious comes to the same whatever is kept in the storage. This is shown twice. In all
schedules it comes to the same, if it is confined to its threads as well
(`Activity.Oblivious.comesTo`). And two worlds that differ in nothing but their storage stay
so while it is carried out, so that it comes to the same in both (`Activity.Oblivious.run`); this
counts time, and what a timeout leaves behind. The stores must be in memory there, for a store of
files would let the tasks under way go on between forgetting a thread and loading it.
-/

set_option autoImplicit false

namespace WorkflowGraph

open Activity

variable {σ α H : Type} {P : Store → Prop} {Q : NodeRun → Prop} {post : α → Prop}
  {Sound : Storage → Prop} {held : Storage → String → H} {forgotten : Option (Store × String)}

/-- Whether a storage is sound, and a thread of a store that has been forgotten has no checkpoint in
it. -/
structure Storage.Clear (Sound : Storage → Prop) (forgotten : Option (Store × String))
    (s : Storage) : Prop where
  sound : Sound s
  gone : ∀ store thread, forgotten = some (store, thread) → store.load s thread = .ok none

theorem Storage.Clear.of_sound {s : Storage} (hs : Sound s) : s.Clear Sound none :=
  ⟨hs, by rintro store thread ⟨⟩⟩

theorem Storage.Clear.weaken {s : Storage} (hs : s.Clear Sound forgotten) : s.Clear Sound none :=
  .of_sound hs.sound

theorem Storage.Clear.of_load {s : Storage} (hs : Sound s) {store : Store} {thread : String}
    (h : store.load s thread = .ok none) : s.Clear Sound (some (store, thread)) :=
  ⟨hs, by
    rintro _ _ ⟨⟩
    exact h⟩

/-- A world with another storage. -/
def World.onto (w : World σ) (s : Storage) : World σ := { w with storage := s }

/-- **Who is oblivious is answered alike.** A call in two storages of which the forgotten thread is
gone leaves worlds that differ in their storage only, and is gone on with in the same way. -/
theorem Activity.Oblivious.answer {c : Call} {rest : c.Answer → Activity α}
    (h : (ask c rest).Oblivious P Q post forgotten)
    (hkeeps : ∀ store, P store → store.KeepsApart (· ≠ "") Sound held) (host : Host σ)
    {w : World σ} {s : Storage} (hw : w.storage.Clear Sound forgotten)
    (hs : s.Clear Sound forgotten) :
    ∃ next t, (c.answer host (w.onto s)).2 = (c.answer host w).2.onto t ∧
      rest (c.answer host (w.onto s)).1 = rest (c.answer host w).1 ∧
      (rest (c.answer host w).1).Oblivious P Q post next ∧
      (c.answer host w).2.storage.Clear Sound next ∧ t.Clear Sound next := by
  cases c with
  | task e r => exact ⟨none, s, rfl, rfl, h _, hw.weaken, hs.weaken⟩
  | tool name arguments => exact ⟨none, s, rfl, rfl, h _, hw.weaken, hs.weaken⟩
  | load store thread =>
    obtain ⟨_, rfl, hrest⟩ := h
    have hhere : (Call.answer host w (.load store thread)).1 = .ok none := hw.gone _ _ rfl
    have hthere : (Call.answer host (w.onto s) (.load store thread)).1 = .ok none := hs.gone _ _ rfl
    refine ⟨none, s, rfl, ?_, ?_, hw.weaken, hs.weaken⟩
    · rw [hthere, hhere]
    · rw [hhere]
      exact hrest
  | save store c =>
    obtain ⟨⟨hstore, hthread⟩, hrest⟩ := h
    have hkept := hkeeps store hstore
    have hsame : (Call.answer host (w.onto s) (.save store c)).1 =
        (Call.answer host w (.save store c)).1 := hkept.saves c hthread _ _ hs.sound hw.sound
    exact ⟨none, (store.save s c).2, rfl, congrArg rest hsame, hrest _,
      .of_sound ((hkept.save c hthread).sound _ hw.sound),
      .of_sound ((hkept.save c hthread).sound _ hs.sound)⟩
  | delete store thread =>
    obtain ⟨⟨hstore, hthread⟩, hrest⟩ := h
    have hkept := hkeeps store hstore
    obtain ⟨hdone, hgone⟩ := hkept.forgets thread hthread w.storage hw.sound
    obtain ⟨hdone', hgone'⟩ := hkept.forgets thread hthread s hs.sound
    have hhere : (Call.answer host w (.delete store thread)).1 = .ok () := hdone
    have hthere : (Call.answer host (w.onto s) (.delete store thread)).1 = .ok () := hdone'
    refine ⟨some (store, thread), (store.delete s thread).2, rfl, ?_, ?_,
      .of_load ((hkept.delete thread hthread).sound _ hw.sound) hgone,
      .of_load ((hkept.delete thread hthread).sound _ hs.sound) hgone'⟩
    · rw [hthere, hhere]
    · rw [hhere]
      exact hrest
  | prune store thread keep =>
    obtain ⟨⟨⟨hstore, hthread⟩, hkeep⟩, hsame, hrest⟩ := h
    have hkept := hkeeps store hstore
    obtain ⟨_, hdone⟩ := hkept.prunes thread keep hthread hkeep w.storage hw.sound
    obtain ⟨_, hdone'⟩ := hkept.prunes thread keep hthread hkeep s hs.sound
    have hhere : rest (Call.answer host w (.prune store thread keep)).1 = rest (.ok 0) :=
      (congrArg rest hdone).trans (hsame _)
    have hthere : rest (Call.answer host (w.onto s) (.prune store thread keep)).1 = rest (.ok 0) :=
      (congrArg rest hdone').trans (hsame _)
    refine ⟨none, (store.prune s thread keep).2, rfl, hthere.trans hhere.symm, ?_,
      .of_sound ((hkept.prune thread keep hthread hkeep).sound _ hw.sound),
      .of_sound ((hkept.prune thread keep hthread hkeep).sound _ hs.sound)⟩
    rw [hhere]
    exact hrest

/-! ## Schedules -/

/-- Whether every schedule of an activity, in every storage of some kind, can be brought to its end,
and none ends with anything but one result. -/
def Activity.ComesTo (host : Host Unit) (start : Storage → Prop) (p : Activity α) (a : α) : Prop :=
  ∀ (s t : Storage) (steps : Nat) (calls : List Call) (u : Underway α), start s →
    Underway.Schedule host steps s (.going p) calls t u →
      (∃ more later r, Underway.Schedule host more t u later r (.going (.done a))) ∧
        ∀ b, u = .going (.done b) → b = a

/-- Whether what is done in a storage comes to the same in all of them that are sound, with a
postcondition, and leaves them sound. -/
structure Ended.Blind (Sound : Storage → Prop) (post : α → Prop) (f : Storage → Ended α)
    (s t : Storage) : Prop where
  result : (f t).result = (f s).result
  holds : post (f s).result
  sound : Sound (f s).storage
  sound' : Sound (f t).storage

/-- By induction on the number of tasks. -/
theorem Ended.blind_each {count : Nat} {tasks : Fin count → Storage → Ended NodeRun}
    (h : ∀ i s t, Sound s → Sound t → Blind Sound Q (tasks i) s t) {s t : Storage} (hs : Sound s)
    (ht : Sound t) : Blind Sound (fun runs => ∀ r ∈ runs, Q r) (Ended.each tasks) s t := by
  induction count generalizing s t with
  | zero => exact ⟨rfl, by rintro r ⟨⟩, hs, ht⟩
  | succ count ih =>
    have hfirst := h 0 s t hs ht
    have hothers := ih (fun i => h i.succ) hfirst.sound hfirst.sound'
    refine ⟨?_, ?_, hothers.sound, hothers.sound'⟩
    · simp only [Ended.each, hfirst.result, hothers.result]
    · exact List.forall_mem_cons.2 ⟨hfirst.holds, hothers.holds⟩

namespace Activity.Oblivious

variable (hkeeps : ∀ store, P store → store.KeepsApart (· ≠ "") Sound held)

include hkeeps

/-- What is oblivious comes to the same in turn, also after some tasks have come to what they
should. By induction on the activity. -/
theorem inTurn_after {p : Activity α} (h : p.Oblivious P Q post forgotten) (host : Host Unit)
    {s t : Storage} (hs : s.Clear Sound forgotten) (ht : t.Clear Sound forgotten)
    {runs : Option (List NodeRun)} (hruns : ∀ l, runs = some l → ∀ r ∈ l, Q r) :
    Ended.Blind Sound post (p.inTurn host runs) s t := by
  induction p generalizing forgotten s t runs with
  | done a => exact ⟨rfl, h, hs.sound, ht.sound⟩
  | wait _ p ih =>
    have hrest := ih h hs.weaken ht.weaken hruns
    exact ⟨hrest.result, hrest.holds, hrest.sound, hrest.sound'⟩
  | ask c rest ih =>
    obtain ⟨next, r, hworld, hsame, hrest, hclear, hclear'⟩ :=
      h.answer hkeeps host (w := .initial () s) hs ht
    have hthere : (c.reply host t).2 = r := congrArg World.storage hworld
    have hlater := ih _ hrest hclear (hthere ▸ hclear') hruns
    refine ⟨?_, hlater.holds, hlater.sound, ?_⟩
    · refine Eq.trans ?_ hlater.result
      exact congrArg (fun p => (Activity.inTurn host p runs (c.reply host t).2).result) hsame
    · refine Eq.mp ?_ hlater.sound'
      exact congrArg (fun p => Sound (Activity.inTurn host p runs (c.reply host t).2).storage)
        hsame.symm
  | start limit count task rest ihtask ihrest =>
    have htask (i : Fin count) (s t : Storage) (hs : Sound s) (ht : Sound t) :
        Ended.Blind Sound Q ((task i).inTurn host none) s t :=
      ihtask i (h.1 i) (.of_sound hs) (.of_sound ht) (by rintro _ ⟨⟩)
    have htasks := Ended.blind_each htask hs.sound ht.sound
    have hrest := ihrest 0 (h.2 0) (.of_sound htasks.sound) (.of_sound htasks.sound')
      fun l hl => Option.some.inj hl ▸ htasks.holds
    refine ⟨?_, hrest.holds, hrest.sound, ?_⟩
    · refine Eq.trans ?_ hrest.result
      simp only [Activity.inTurn, Ended.after, htasks.result]
    · simp only [Activity.inTurn, Ended.after, htasks.result]
      exact hrest.sound'
  | join group span rest ih =>
    have hnone : ∀ l, (none : Option (List NodeRun)) = some l → ∀ r ∈ l, Q r := by rintro _ ⟨⟩
    have hrest := ih runs 0 (h runs 0 hruns) hs.weaken ht.weaken hnone
    exact ⟨hrest.result, hrest.holds, hrest.sound, hrest.sound'⟩

theorem inTurn {p : Activity α} (h : p.Oblivious P Q post forgotten) (host : Host Unit)
    {s t : Storage} (hs : s.Clear Sound forgotten) (ht : t.Clear Sound forgotten) :
    Ended.Blind Sound post (p.inTurn host none) s t := by
  apply h.inTurn_after hkeeps host hs ht
  rintro _ ⟨⟩

/-- **Every schedule in every storage comes to the same.** What is oblivious and confined comes to
what it comes to in turn, in any sound storage of which the forgotten thread is gone. -/
theorem comesTo {O : String → Prop} {other : α → Prop} {p : Activity α}
    (h : p.Oblivious P Q post forgotten) (hp : p.Confined P O other)
    (hnamed : ∀ thread, O thread → thread ≠ "") (host : Host Unit) {first : Storage}
    (hfirst : first.Clear Sound forgotten) :
    p.ComesTo host (Storage.Clear Sound forgotten) (p.inTurn host none first).result := by
  intro s t steps calls u hs hschedule
  have hsame := (h.inTurn hkeeps host hfirst hs).result
  obtain ⟨⟨more, later, r, b, _, hlater⟩, hend⟩ :=
    hp.every_schedule_apart hkeeps hnamed hs.sound hschedule
  obtain ⟨_, hwhole⟩ := hp.every_schedule_apart hkeeps hnamed hs.sound (hschedule.trans hlater)
  obtain rfl : b = (p.inTurn host none first).result := (hwhole b rfl).1.trans hsame
  exact ⟨⟨more, later, r, hlater⟩, fun b hb => (hend b hb).1.trans hsame⟩

end Activity.Oblivious

/-! ## Worlds -/

/-- Whether the strands of a crew learn nothing from their stores. -/
def Crew.Oblivious (P : Store → Prop) (Q : NodeRun → Prop) (strands : List Strand) : Prop :=
  ∀ p, (⟨NodeRun, p⟩ : Activity.Tree) ∈ Crew.trees strands → p.Oblivious P Q Q none

/-- Whether what is left of a halted activity learns nothing from its stores. -/
def Activity.Halt.Oblivious (P : Store → Prop) (Q : NodeRun → Prop) (post : α → Prop) :
    Halt α → Prop
  | .finished a => post a
  | .paused _ rest => rest.Oblivious P Q post none
  | .joined _ _ rest => rest.Oblivious P Q post none

/-- Whether a world and its twin, which is the world with another storage, stay alike: both storages
are sound, and no task under way learns anything from them. -/
structure World.Twins (P : Store → Prop) (Q : NodeRun → Prop) (Sound : Storage → Prop)
    (w : World σ) (s : Storage) : Prop where
  here : Sound w.storage
  there : Sound s
  strands : Crew.Oblivious P Q w.crew.strands
  groups : Crew.Hold Q w.crew.groups

namespace Crew

theorem oblivious_append {xs ys : List Strand} :
    Oblivious P Q (xs ++ ys) ↔ Oblivious P Q xs ∧ Oblivious P Q ys := by
  simp only [Oblivious, trees_append, List.mem_append, or_imp, forall_and]

theorem oblivious_singleton {s : Strand} :
    Oblivious P Q [s] ↔ s.rest.Oblivious P Q Q none := by
  refine ⟨fun h => h _ (List.mem_singleton.2 rfl), fun h p hp => ?_⟩
  cases List.mem_singleton.1 hp
  exact h

theorem oblivious_nil : Oblivious P Q [] := by
  rintro p ⟨⟩

end Crew

/-- The tasks under way take one turn, or the clock moves, or nothing is left to do. -/
theorem World.settle_eq (host : Host σ) (goal limit : Option Nat) (w : World σ) :
    w.settle host goal limit =
      match Crew.pick? w.clock w.crew.strands with
      | some (front, s, back) => (w.turn host front s back).settle host goal limit
      | none =>
        if goal.any fun group => (w.crew.results? group).isSome then w
        else
          match Crew.next? w.clock w.crew.strands with
          | some later =>
            if limit.any (· ≤ later) then { w with clock := limit.getD w.clock }
            else World.settle host goal limit { w with clock := later }
          | none => { w with clock := limit.getD w.clock } := by
  rw [World.settle]
  split
  · next hp => rw [hp]
  · next hp =>
    rw [hp]
    dsimp only
    congr 1
    split
    · next hn => rw [hn]
    · next hn => rw [hn]

namespace World.Twins

variable {w : World σ} {s : Storage} (hkeeps : ∀ store, P store → store.KeepsApart (· ≠ "") Sound held)
  (host : Host σ)

theorem start (h : w.Twins P Q Sound s) (limit count : Nat) {task : Fin count → Activity NodeRun}
    (htask : ∀ i, (task i).Oblivious P Q Q none) :
    World.Twins P Q Sound { w with crew := (w.crew.start w.clock limit count task).2 } s := by
  refine ⟨h.here, h.there, Crew.oblivious_append.2 ⟨h.strands, fun p hp => ?_⟩, fun g hg => ?_⟩
  · simp only [Crew.trees, List.mem_map, List.mem_ofFn] at hp
    obtain ⟨s, ⟨i, rfl⟩, heq⟩ := hp
    cases heq
    exact htask i
  · rcases List.mem_append.1 hg with hg | hg
    · exact h.groups g hg
    · rw [List.mem_singleton.1 hg]
      rintro p ⟨⟩

include hkeeps

/-- Twins are answered alike. -/
theorem answer (h : w.Twins P Q Sound s) {c : Call} {rest : c.Answer → Activity α}
    (hc : (ask c rest).Oblivious P Q post forgotten)
    (hw : w.storage.Clear Sound forgotten) (hs : s.Clear Sound forgotten) :
    ∃ next t, (c.answer host (w.onto s)).2 = (c.answer host w).2.onto t ∧
      rest (c.answer host (w.onto s)).1 = rest (c.answer host w).1 ∧
      (rest (c.answer host w).1).Oblivious P Q post next ∧
      (c.answer host w).2.storage.Clear Sound next ∧ t.Clear Sound next ∧
      (c.answer host w).2.Twins P Q Sound t := by
  obtain ⟨next, t, hworld, hsame, hrest, hclear, hclear'⟩ := hc.answer hkeeps host hw hs
  refine ⟨next, t, hworld, hsame, hrest, hclear, hclear', hclear.sound, hclear'.sound, ?_, ?_⟩
  · rw [c.crew_answer]
    exact h.strands
  · rw [c.crew_answer]
    exact h.groups

theorem advance {p : Activity α} (h : w.Twins P Q Sound s) (hp : p.Oblivious P Q post forgotten)
    (hw : w.storage.Clear Sound forgotten) (hs : s.Clear Sound forgotten) :
    ∃ t, p.advance host (w.onto s) = ((p.advance host w).1, (p.advance host w).2.onto t) ∧
      (p.advance host w).2.Twins P Q Sound t ∧ (p.advance host w).1.Oblivious P Q post := by
  induction p generalizing w s forgotten with
  | done a => exact ⟨s, rfl, h, hp⟩
  | wait n p ih =>
    unfold Activity.advance
    split
    · exact ih h hp hw.weaken hs.weaken
    · exact ⟨s, rfl, h, hp⟩
  | ask c rest ih =>
    obtain ⟨next, t, hworld, hsame, hrest, hclear, hclear', htwins⟩ :=
      h.answer hkeeps host hp hw hs
    obtain ⟨r, hadvance, hafter⟩ := ih _ htwins hrest hclear hclear'
    refine ⟨r, ?_, hafter⟩
    unfold Activity.advance
    dsimp only
    rw [hsame, hworld]
    exact hadvance
  | start limit count task rest _ ih =>
    exact ih _ (h.start limit count hp.1) (hp.2 _) hw.weaken hs.weaken
  | join g span rest ih =>
    have hcrew : (w.onto s).crew = w.crew := rfl
    unfold Activity.advance
    rw [hcrew]
    split
    · next runs hruns =>
      refine ih _ _ h (hp _ _ ?_) hw.weaken hs.weaken
      rintro _ ⟨⟩
      exact h.groups.results hruns
    · split
      · refine ih _ _ h (hp _ _ ?_) hw.weaken hs.weaken
        rintro _ ⟨⟩
      · exact ⟨s, rfl, h, hp⟩

theorem goOn {front back : List Strand} {strand : Strand} {p : Activity NodeRun}
    (h : w.Twins P Q Sound s) (hfront : Crew.Oblivious P Q front)
    (hback : Crew.Oblivious P Q back) (hp : p.Oblivious P Q Q none) :
    ∃ t, (w.onto s).goOn host front strand back p = (w.goOn host front strand back p).onto t ∧
      (w.goOn host front strand back p).Twins P Q Sound t := by
  have hempty : (w.put [] [] []).Twins P Q Sound s :=
    ⟨h.here, h.there, Crew.oblivious_nil, h.groups⟩
  obtain ⟨t, hadvance, htwins, hhalt⟩ :=
    hempty.advance hkeeps host hp (.of_sound h.here) (.of_sound h.there)
  have hput : (w.onto s).put [] [] [] = (w.put [] [] []).onto s := rfl
  unfold World.goOn
  rw [hput, hadvance]
  clear hadvance
  generalize p.advance host (w.put [] [] []) = r at htwins hhalt ⊢
  obtain ⟨halt, v⟩ := r
  have hall {strands : List Strand} (hs : Crew.Oblivious P Q strands) :
      Crew.Oblivious P Q (front ++ strands ++ back) :=
    Crew.oblivious_append.2 ⟨Crew.oblivious_append.2 ⟨hfront, hs⟩, hback⟩
  have hone {strand : Strand} (hs : strand.rest.Oblivious P Q Q none) :=
    hall (Crew.oblivious_append.2 ⟨htwins.strands, Crew.oblivious_singleton.2 hs⟩)
  cases halt with
  | finished run =>
    refine ⟨t, rfl, htwins.here, htwins.there, ?_, ?_⟩
    · unfold Crew.Oblivious
      dsimp only
      rw [Crew.trees_finish]
      exact hall htwins.strands
    · exact Crew.Hold.finish (by exact htwins.groups) _ _ _ hhalt
  | paused n rest => exact ⟨t, rfl, htwins.here, htwins.there, hone hhalt, htwins.groups⟩
  | joined group n rest => exact ⟨t, rfl, htwins.here, htwins.there, hone hhalt, htwins.groups⟩

theorem turn {front back : List Strand} {strand : Strand} (h : w.Twins P Q Sound s)
    (hs : w.crew.strands = front ++ strand :: back) :
    ∃ t, (w.onto s).turn host front strand back = (w.turn host front strand back).onto t ∧
      (w.turn host front strand back).Twins P Q Sound t := by
  have hstrands := h.strands
  rw [hs, ← List.singleton_append, Crew.oblivious_append, Crew.oblivious_append,
    Crew.oblivious_singleton] at hstrands
  obtain ⟨hfront, hrest, hback⟩ := hstrands
  have hanswered (runs : Option (List NodeRun)) (spent : Nat)
      (hruns : ∀ l, runs = some l → ∀ r ∈ l, Q r) :
      (strand.rest.answered runs spent).Oblivious P Q Q none := by
    unfold Activity.answered
    split
    · next hjoin =>
      rw [hjoin] at hrest
      exact hrest runs spent hruns
    · exact hrest
  have hsame (stage : Stage) : (w.put front [{ strand with stage }] back).Twins P Q Sound s :=
    ⟨h.here, h.there, Crew.oblivious_append.2
      ⟨Crew.oblivious_append.2 ⟨hfront, Crew.oblivious_singleton.2 hrest⟩, hback⟩, h.groups⟩
  have htaken : World.Twins P Q Sound { w with crew := w.crew.takePlace strand.group } s :=
    ⟨h.here, h.there, h.strands, h.groups.modify (by exact fun _ hg => hg) strand.group⟩
  have hcrew : (w.onto s).crew = w.crew := rfl
  have hclock : (w.onto s).clock = w.clock := rfl
  unfold World.turn
  rw [hcrew, hclock]
  split
  · exact goOn hkeeps host h hfront hback hrest
  · split
    · exact goOn hkeeps host htaken hfront hback hrest
    · exact ⟨s, rfl, hsame _⟩
  · exact ⟨s, rfl, h⟩
  · split
    · next runs hruns =>
      refine goOn hkeeps host h hfront hback (hanswered _ _ ?_)
      rintro _ ⟨⟩
      exact h.groups.results hruns
    · split
      · refine goOn hkeeps host h hfront hback (hanswered _ _ ?_)
        rintro _ ⟨⟩
      · exact ⟨s, rfl, hsame _⟩

theorem settle (goal limit : Option Nat) (h : w.Twins P Q Sound s) :
    ∃ t, (w.onto s).settle host goal limit = (w.settle host goal limit).onto t ∧
      (w.settle host goal limit).Twins P Q Sound t := by
  have hcrew (w : World σ) : (w.onto s).crew = w.crew := rfl
  have hclock (w : World σ) : (w.onto s).clock = w.clock := rfl
  fun_induction World.settle generalizing s with
  | case1 w front strand back hp ih =>
    obtain ⟨t, hturn, htwins⟩ := h.turn hkeeps host (Crew.pick?_eq_some hp).1
    obtain ⟨r, hsettle, hafter⟩ := ih htwins (fun _ => rfl) fun _ => rfl
    refine ⟨r, ?_, hafter⟩
    rw [World.settle_eq, hcrew, hclock, hp]
    dsimp only
    rw [hturn, hsettle]
  | case2 w hp hgoal =>
    refine ⟨s, ?_, h⟩
    rw [World.settle_eq, hcrew, hclock, hp]
    dsimp only
    rw [if_pos hgoal]
  | case3 w hp hgoal later hn hlimit =>
    refine ⟨s, ?_, h.here, h.there, h.strands, h.groups⟩
    rw [World.settle_eq, hcrew, hclock, hp]
    dsimp only
    rw [if_neg hgoal, hn]
    dsimp only
    rw [if_pos hlimit]
    rfl
  | case4 w hp hgoal later hn hlimit ih =>
    obtain ⟨t, hsettle, htwins⟩ := ih ⟨h.here, h.there, h.strands, h.groups⟩ (fun _ => rfl)
      fun _ => rfl
    refine ⟨t, ?_, htwins⟩
    rw [World.settle_eq, hcrew, hclock, hp]
    dsimp only
    rw [if_neg hgoal, hn]
    dsimp only
    rw [if_neg hlimit]
    exact hsettle
  | case5 w hp hgoal hn =>
    refine ⟨s, ?_, h.here, h.there, h.strands, h.groups⟩
    rw [World.settle_eq, hcrew, hclock, hp]
    dsimp only
    rw [if_neg hgoal, hn]
    rfl

theorem pass (span : Nat) (h : w.Twins P Q Sound s) :
    ∃ t, (w.onto s).pass host span = (w.pass host span).onto t ∧
      (w.pass host span).Twins P Q Sound t := by
  unfold World.pass
  split
  · exact ⟨s, rfl, h⟩
  · exact h.settle hkeeps host _ _

theorem await (group : Nat) (span : Option Nat) (h : w.Twins P Q Sound s) :
    ∃ t, (w.onto s).await host group span = (w.await host group span).onto t ∧
      (w.await host group span).Twins P Q Sound t := by
  have hcrew : (w.onto s).crew = w.crew := rfl
  unfold World.await
  rw [hcrew]
  split
  · exact ⟨s, rfl, h⟩
  · exact h.settle hkeeps host _ _

end World.Twins

/-- **What is oblivious comes to the same in twins.** Where all stores are in memory, an activity
that learns nothing from them is carried out alike in two worlds that differ in nothing but their
storage: the result is the same and has the postcondition, and what is left are twins again. -/
theorem Activity.Oblivious.run {p : Activity α} (h : p.Oblivious P Q post forgotten)
    (hkeeps : ∀ store, P store → store.KeepsApart (· ≠ "") Sound held)
    (hmemory : ∀ store, P store → store = .memory) (host : Host σ) {w : World σ} {s : Storage}
    (hw : w.Twins P Q Sound s) (hclear : w.storage.Clear Sound forgotten)
    (hclear' : s.Clear Sound forgotten) :
    ∃ t, p.run host (w.onto s) = ((p.run host w).1, (p.run host w).2.onto t) ∧
      post (p.run host w).1 ∧ (p.run host w).2.Twins P Q Sound t := by
  induction p generalizing w s forgotten with
  | done a => exact ⟨s, rfl, h, hw⟩
  | wait n p ih =>
    obtain ⟨t, hpass, htwins⟩ := hw.pass hkeeps host n
    unfold Activity.run
    rw [hpass]
    exact ih h htwins (.of_sound htwins.here) (.of_sound htwins.there)
  | ask c rest ih =>
    have hquick : c.isSlow = false := by
      cases c with
      | task | tool => rfl
      | load store => rw [hmemory store h.1.1]; rfl
      | save store => rw [hmemory store h.1.1]; rfl
      | delete store => rw [hmemory store h.1.1]; rfl
      | prune store => rw [hmemory store h.1.1.1]; rfl
    obtain ⟨next, t, hworld, hsame, hrest, hthen, hthen', htwins⟩ :=
      hw.answer hkeeps host h hclear hclear'
    obtain ⟨r, hrun, hafter⟩ := ih _ hrest htwins hthen hthen'
    refine ⟨r, ?_, ?_⟩
    · unfold Activity.run
      simp only [hquick, Bool.false_eq_true, if_false]
      rw [hsame, hworld]
      exact hrun
    · unfold Activity.run
      simp only [hquick, Bool.false_eq_true, if_false]
      exact hafter
  | start limit count task rest _ ih =>
    exact ih _ (h.2 _) (hw.start limit count h.1) hclear.weaken hclear'.weaken
  | join group span rest ih =>
    obtain ⟨t, hawait, htwins⟩ := hw.await hkeeps host group span
    have hruns (l : List NodeRun)
        (hl : (w.await host group span).crew.results? group = some l) : ∀ r ∈ l, Q r :=
      htwins.groups.results hl
    unfold Activity.run
    rw [hawait]
    exact ih _ _ (h _ _ hruns) htwins (.of_sound htwins.here) (.of_sound htwins.there)

end WorkflowGraph
