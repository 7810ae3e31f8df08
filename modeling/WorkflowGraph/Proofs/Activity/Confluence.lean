import WorkflowGraph.Proofs.Activity.InTurn

/-!
# All schedules come to the same

No step changes what is left to come to, if everybody is confined: who goes on does what it would
have done in its turn, and the others do not notice it (`Underway.Step.leaves`). So a schedule that
has come to its end has come to what the tasks in turn come to, with the same calls in some order
(`Activity.Confined.every_schedule`). Every schedule can be brought to its end, and none is longer
than another one: as long as something is under way there is a step, and each one brings the end
closer.
-/

set_option autoImplicit false

namespace WorkflowGraph

variable {H : Type} {P : Store → Prop} {Sound : Storage → Prop} {held : Storage → String → H}
  {O T : String → Prop} {α β : Type} {post : α → Prop}

namespace Ended

/-- Whether one end is what is left of another one after some calls and steps. -/
structure Left (held : Storage → String → H) (before : Ended α) (calls : Multiset Call)
    (steps : Nat) (e : Ended α) : Prop where
  result : e.result = before.result
  calls : before.calls = calls + e.calls
  steps : before.steps = steps + e.steps
  storage : ∀ thread, held e.storage thread = held before.storage thread

theorem Left.trans {x y z : Ended α} {first later : Multiset Call} {m n : Nat}
    (h : Left held x first m y) (h' : Left held y later n z) :
    Left held x (first + later) (m + n) z := by
  refine ⟨h'.result.trans h.result, ?_, ?_, fun thread => ?_⟩
  · rw [h.calls, h'.calls, add_assoc]
  · rw [h.steps, h'.steps, add_assoc]
  · exact (h'.storage thread).trans (h.storage thread)

/-- Where storages hold the same on all threads, the same is done in both. -/
theorem Local.left {f : Storage → Ended α} (h : Local Sound held O f) {s t : Storage}
    (hs : Sound s) (ht : Sound t) (hst : ∀ thread, held t thread = held s thread) :
    Left held (f s) 0 0 (f t) := by
  have halike : t.Alike held O s := fun thread _ => hst thread
  refine ⟨h.result t s ht hs halike, ?_, ?_, fun thread => ?_⟩
  · rw [zero_add, h.calls t s ht hs halike]
  · rw [zero_add, h.steps t s ht hs halike]
  · by_cases hthread : O thread
    · exact h.storage t s ht hs halike thread hthread
    · rw [h.frame t ht thread hthread, h.frame s hs thread hthread, hst thread]

/-- What is left of a first part is left of the whole. -/
theorem Left.andThen {e e' : Ended β} {g : β → Storage → Ended α} {calls : Multiset Call}
    {steps : Nat} (h : Left held e calls steps e') (hg : ∀ b, Local Sound held O (g b))
    (hsound : Sound e.storage) (hsound' : Sound e'.storage) {more rest extra : Nat}
    (hmore : more = extra + rest) :
    Left held ((g e.result e.storage).after e.calls (more + e.steps)) calls (extra + steps)
      ((g e'.result e'.storage).after e'.calls (rest + e'.steps)) := by
  have hlater := (hg e.result).left hsound hsound' h.storage
  rw [h.result]
  refine ⟨hlater.result, ?_, ?_, hlater.storage⟩
  · simp only [Ended.after, h.calls, hlater.calls, zero_add, add_assoc]
  · simp only [Ended.after, h.steps, hlater.steps]
    omega

/-- What is left of one task is left of all of them, since the others do not notice what it does. -/
theorem Left.each {count : Nat} {tasks tasks' : Fin count → Storage → Ended NodeRun}
    {Os : Fin count → String → Prop} (hlocal : ∀ i, Local Sound held (Os i) (tasks i))
    (hlocal' : ∀ i, Local Sound held (Os i) (tasks' i))
    (hapart : ∀ i j thread, Os i thread → Os j thread → i = j) {s t : Storage} (hs : Sound s)
    (ht : Sound t) {i : Fin count} (hsame : ∀ j, j ≠ i → tasks' j = tasks j)
    (hframe : ∀ thread, ¬ Os i thread → held t thread = held s thread) {calls : Multiset Call}
    {steps : Nat} (hi : Left held (tasks i s) calls steps (tasks' i t)) :
    Left held (Ended.each tasks s) calls steps (Ended.each tasks' t) := by
  have hbefore := gathers_each hlocal hapart hs
  have hafter := gathers_each hlocal' hapart ht
  have halike {j : Fin count} (hj : j ≠ i) : t.Alike held (Os j) s :=
    fun thread hthread => hframe thread fun h => hj (hapart j i thread hthread h)
  refine ⟨?_, ?_, ?_, ?_⟩
  · rw [hafter.result, hbefore.result]
    refine congrArg _ (funext fun j => ?_)
    by_cases hj : j = i
    · subst hj
      exact hi.result
    · rw [hsame j hj]
      exact (hlocal j).result t s ht hs (halike hj)
  · rw [hbefore.calls, hafter.calls]
    refine sum_of_change i hi.calls fun j hj => ?_
    rw [hsame j hj]
    exact ((hlocal j).calls t s ht hs (halike hj)).symm
  · rw [hbefore.steps, hafter.steps]
    refine sum_of_change i hi.steps fun j hj => ?_
    rw [hsame j hj]
    exact ((hlocal j).steps t s ht hs (halike hj)).symm
  · intro thread
    by_cases hsome : ∃ j, Os j thread
    · obtain ⟨j, hthread⟩ := hsome
      rw [hafter.inside j thread hthread, hbefore.inside j thread hthread]
      by_cases hj : j = i
      · subst hj
        exact hi.storage thread
      · rw [hsame j hj]
        exact (hlocal j).storage t s ht hs (halike hj) thread hthread
    · have hnone : ∀ j, ¬ Os j thread := fun j hj => hsome ⟨j, hj⟩
      rw [hafter.outside thread hnone, hbefore.outside thread hnone]
      exact hframe thread (hnone i)

end Ended

theorem Activity.Confined.of_start {limit count : Nat} {task : Fin count → Activity NodeRun}
    {span : Option Nat} {next : Option (List NodeRun) → Nat → Activity α}
    (h : (Activity.start limit count task fun group => .join group span next).Confined P O post) :
    1 ≤ limit ∧ (∀ runs, (next (some runs) 0).Confined P O post) ∧
      ∃ Os : Fin count → String → Prop, (∀ i thread, Os i thread → O thread) ∧
        (∀ i j thread, Os i thread → Os j thread → i = j) ∧
        ∀ i, (task i).Confined P (Os i) fun _ => True := by
  generalize hp : (Activity.start limit count task fun group => .join group span next) = p at h
  cases h with
  | done | wait | ask => cases hp
  | fork Os hlimit hinside hapart htask hnext =>
    obtain ⟨rfl, rfl, htasks, hrest⟩ := Activity.start.inj hp
    obtain rfl := eq_of_heq htasks
    obtain ⟨_, _, rfl⟩ := Activity.join.inj (congrFun hrest 0)
    exact ⟨hlimit, hnext, Os, hinside, hapart, htask⟩

namespace Underway

/-- What a step leaves: who was confined still is, and all that is left to come to is the same. -/
structure Leaves (P : Store → Prop) (Sound : Storage → Prop)
    (held : Storage → String → H) (host : Host Unit) (O : String → Prop) (post : α → Prop)
    (steps : Nat) (s : Storage) (u : Underway α) (calls : List Call) (t : Storage)
    (v : Underway α) : Prop where
  confined : v.Confined P O post
  sound : Sound t
  frame : ∀ thread, ¬ O thread → held t thread = held s thread
  left : Ended.Left held (u.inTurn host s) (calls : Multiset Call) steps (v.inTurn host t)

variable (hkeeps : ∀ store, P store → store.KeepsApart T Sound held)
  (hthreads : ∀ thread, O thread → T thread) {host : Host Unit} {s t : Storage}
  {u v : Underway α} {calls : List Call}

include hkeeps hthreads

/-- **A step changes nothing of what is left to come to.** By induction on how deep the task is that
goes on. -/
theorem Step.leaves (h : Step host s u calls t v) (hu : u.Confined P O post) (hs : Sound s) :
    Leaves P Sound held host O post 1 s u calls t v := by
  induction h generalizing O with
  | wait =>
    cases hu with | going h =>
    cases h with | wait hrest =>
    refine ⟨.going hrest, hs, fun _ _ => rfl, rfl, ?_, rfl, fun _ => rfl⟩
    simp only [Underway.inTurn, Activity.inTurn, Ended.after, Multiset.coe_nil]
  | ask =>
    cases hu with | going h =>
    cases h with | ask hcall hrest =>
    have hreply := hcall.reply_apart hkeeps hthreads host
    exact ⟨.going (hrest _), hreply.sound _ hs, hreply.frame _ hs, rfl, rfl, rfl, fun _ => rfl⟩
  | start =>
    cases hu with | going h =>
    obtain ⟨hlimit, hnext, Os, hinside, hapart, htask⟩ := h.of_start
    refine ⟨.joined Os hlimit hinside hapart (fun i => .going (htask i)) hnext, hs, fun _ _ => rfl,
      rfl, ?_, ?_, fun _ => rfl⟩
    · simp only [Underway.inTurn, Activity.inTurn, Ended.after, Multiset.coe_nil, zero_add]
    · simp only [Underway.inTurn, Activity.inTurn, Ended.after, Bool.false_eq_true, if_false,
        Finset.sum_const, Finset.card_univ, Fintype.card_fin, smul_eq_mul, mul_one]
      omega
  | @begin _ s _ count begun tasks _ i hheld hplace =>
    cases hu with | joined Os hlimit hinside hapart htasks hrest =>
    have hbelow (j : Fin count) (thread : String) (h : Os j thread) : T thread :=
      hthreads thread (hinside j thread h)
    have hlocal (j : Fin count) := (htasks j).inTurn_apart hkeeps (hbelow j) host
    have heach := (Ended.Local.each hlocal hinside hapart).left hs hs fun _ => rfl
    have hsound := (Ended.Local.each hlocal hinside hapart).sound s hs
    have hfewer : (∑ j, if begun j then 0 else 1) =
        1 + ∑ j, if Function.update begun i true j then 0 else 1 := by
      refine sum_of_change i ?_ fun j hj => ?_
      · rw [hheld, Function.update_self]
        rfl
      · rw [Function.update_of_ne hj]
    refine ⟨.joined Os hlimit hinside hapart htasks hrest, hs, fun _ _ => rfl, ?_⟩
    refine heach.andThen (fun runs => (hrest runs).inTurn_apart hkeeps hthreads host) hsound hsound ?_
    omega
  | @onward _ s t _ _ count _ tasks u _ i hbegun hstep ih =>
    cases hu with | joined Os hlimit hinside hapart htasks hrest =>
    have hbelow (j : Fin count) (thread : String) (h : Os j thread) : T thread :=
      hthreads thread (hinside j thread h)
    obtain ⟨hconfined, hsound, hframe, hleft⟩ := ih (hbelow i) (htasks i) hs
    have htasks' (j : Fin count) :
        (Function.update tasks i u j).Confined P (Os j) fun _ => True := by
      by_cases hj : j = i
      · subst hj
        rwa [Function.update_self]
      · rw [Function.update_of_ne hj]
        exact htasks j
    have hlocal (j : Fin count) := (htasks j).inTurn_apart hkeeps (hbelow j) host
    have hlocal' (j : Fin count) := (htasks' j).inTurn_apart hkeeps (hbelow j) host
    refine ⟨.joined Os hlimit hinside hapart htasks' hrest, hsound, ?_, ?_⟩
    · exact fun thread hthread => hframe thread fun hi => hthread (hinside i thread hi)
    · have heach := Ended.Left.each hlocal hlocal' hapart hs hsound
        (fun j hj => by rw [Function.update_of_ne hj]) hframe
        (by rw [Function.update_self]; exact hleft)
      exact heach.andThen (fun runs => (hrest runs).inTurn_apart hkeeps hthreads host)
        ((Ended.Local.each hlocal hinside hapart).sound s hs)
        ((Ended.Local.each hlocal' hinside hapart).sound t hsound) (zero_add _).symm
  | @join _ s _ count begun tasks rest runs hover =>
    cases hu with | joined Os hlimit hinside hapart htasks hrest =>
    have hbelow (j : Fin count) (thread : String) (h : Os j thread) : T thread :=
      hthreads thread (hinside j thread h)
    have hlocal (j : Fin count) := (htasks j).inTurn_apart hkeeps (hbelow j) host
    have hgathers := Ended.gathers_each hlocal hapart hs
    have hruns (j : Fin count) : (tasks j).inTurn host s = ⟨runs j, s, 0, 0⟩ := by
      rw [(hover j).2]
      rfl
    simp only [hruns] at hgathers
    have heach : Ended.Left held (Ended.each (fun i s => (tasks i).inTurn host s) s) 0 0
        ⟨List.ofFn runs, s, 0, 0⟩ := by
      refine ⟨hgathers.result.symm, ?_, ?_, fun thread => ?_⟩
      · simpa using hgathers.calls
      · simpa using hgathers.steps
      · by_cases hsome : ∃ j, Os j thread
        · obtain ⟨j, hj⟩ := hsome
          exact (hgathers.inside j thread hj).symm
        · exact (hgathers.outside thread fun j hj => hsome ⟨j, hj⟩).symm
    refine ⟨.going (hrest _), hs, fun _ _ => rfl, ?_⟩
    have hleft := heach.andThen (fun runs => (hrest runs).inTurn_apart hkeeps hthreads host) hgathers.sound hs
      (show (∑ j, if begun j then 0 else 1) + 1 = 1 + 0 by simp [(hover _).1])
    change Ended.Left held _ 0 1 (Ended.after _ 0 0) at hleft
    rwa [Ended.after_zero] at hleft

/-- What happens in any number of steps. By induction on the steps. -/
theorem Schedule.leaves {steps : Nat} (h : Schedule host steps s u calls t v)
    (hu : u.Confined P O post) (hs : Sound s) :
    Leaves P Sound held host O post steps s u calls t v := by
  induction h with
  | none => exact ⟨hu, hs, fun _ _ => rfl, rfl, (zero_add _).symm, (zero_add _).symm, fun _ => rfl⟩
  | @step steps _ _ _ _ _ _ first later hstep _ ih =>
    have hfirst := hstep.leaves hkeeps hthreads hu hs
    have hlater := ih hfirst.confined hfirst.sound
    refine ⟨hlater.confined, hlater.sound, fun thread hthread => ?_, ?_⟩
    · exact (hlater.frame thread hthread).trans (hfirst.frame thread hthread)
    · have hleft := hfirst.left.trans hlater.left
      rwa [Multiset.coe_add, Nat.add_comm 1 steps] at hleft

omit hkeeps hthreads

theorem eq_of_isOver (h : u.isOver = true) : ∃ a, u = going (.done a) := by
  unfold isOver at h
  split at h
  · exact ⟨_, rfl⟩
  · cases h

/-- **Whoever is not at the end can go on.** By induction on what is under way: where no task can go
on, one of them can begin, or all of them are over. -/
theorem Confined.exists_step (host : Host Unit) (s : Storage) (hu : u.Confined P O post)
    (hover : u.isOver = false) : ∃ calls t v, Step host s u calls t v := by
  induction hu with
  | going h =>
    cases h with
    | done => cases hover
    | wait => exact ⟨_, _, _, .wait⟩
    | ask => exact ⟨_, _, _, .ask⟩
    | fork => exact ⟨_, _, _, .start⟩
  | @joined _ _ _ limit count begun tasks rest Os hlimit hinside hapart htasks hrest ih =>
    by_cases hrunning : ∃ i, begun i = true ∧ (tasks i).isOver = false
    · obtain ⟨i, hbegun, hi⟩ := hrunning
      obtain ⟨calls, t, v, hstep⟩ := ih i hi
      exact ⟨calls, t, _, .onward i hbegun hstep⟩
    · have hidle (i : Fin count) (hbegun : begun i = true) : (tasks i).isOver = true := by
        by_contra hi
        exact hrunning ⟨i, hbegun, by simpa using hi⟩
      by_cases hheld : ∃ i, begun i = false
      · obtain ⟨i, hi⟩ := hheld
        have hplace : occupied begun tasks < limit := by
          unfold occupied
          rw [Finset.filter_eq_empty_iff.2 fun j _ => ?_]
          · exact hlimit
          · cases hj : begun j with
            | false => simp
            | true => simp [hidle j hj]
        exact ⟨[], s, _, .begin i hi hplace⟩
      · have hbegun (i : Fin count) : begun i = true := by
          by_contra hi
          exact hheld ⟨i, by simpa using hi⟩
        choose runs hruns using fun i => eq_of_isOver (hidle i (hbegun i))
        exact ⟨[], s, _, .join runs fun i => ⟨hbegun i, hruns i⟩⟩

include hkeeps hthreads

/-- Everybody comes to an end, in as many steps as in turn. By induction on their number. -/
theorem Confined.exists_schedule (hu : u.Confined P O post) (hs : Sound s) :
    ∃ calls t a, Schedule host (u.inTurn host s).steps s u calls t (.going (.done a)) := by
  generalize hn : (u.inTurn host s).steps = n
  induction n generalizing s u with
  | zero =>
    cases hover : u.isOver with
    | true =>
      obtain ⟨a, rfl⟩ := eq_of_isOver hover
      exact ⟨[], s, a, .none⟩
    | false =>
      obtain ⟨calls, t, v, hstep⟩ := hu.exists_step host s hover
      have hsteps := (hstep.leaves hkeeps hthreads hu hs).left.steps
      omega
  | succ n ih =>
    cases hover : u.isOver with
    | true =>
      obtain ⟨a, rfl⟩ := eq_of_isOver hover
      cases hn
    | false =>
      obtain ⟨calls, t, v, hstep⟩ := hu.exists_step host s hover
      have hleaves := hstep.leaves hkeeps hthreads hu hs
      have hsteps := hleaves.left.steps
      obtain ⟨later, r, a, hschedule⟩ := ih hleaves.confined hleaves.sound (by omega)
      exact ⟨calls ++ later, r, a, .step hstep hschedule⟩

end Underway

/-- **All schedules come to the same.** What is confined comes to its end in every schedule that is
long enough, none is longer than it takes in turn, and the end is the same. -/
theorem Activity.Confined.every_schedule_apart {p : Activity α} (hp : p.Confined P O post)
    (hkeeps : ∀ store, P store → store.KeepsApart T Sound held)
    (hthreads : ∀ thread, O thread → T thread) {host : Host Unit} {s t : Storage}
    (hs : Sound s) {steps : Nat} {calls : List Call} {u : Underway α}
    (h : Underway.Schedule host steps s (.going p) calls t u) :
    (∃ more later r a, steps + more = (p.inTurn host none s).steps ∧
      Underway.Schedule host more t u later r (.going (.done a))) ∧
    ∀ a, u = .going (.done a) → a = (p.inTurn host none s).result ∧
      (calls : Multiset Call) = (p.inTurn host none s).calls ∧
      ∀ thread, held t thread = held (p.inTurn host none s).storage thread := by
  have hleaves := h.leaves hkeeps hthreads (.going hp) hs
  refine ⟨?_, ?_⟩
  · obtain ⟨later, r, a, hlater⟩ :=
      hleaves.confined.exists_schedule hkeeps hthreads hleaves.sound
    exact ⟨_, later, r, a, hleaves.left.steps.symm, hlater⟩
  · rintro a rfl
    obtain ⟨hresult, hcalls, _, hstorage⟩ := hleaves.left
    exact ⟨hresult, (hcalls.trans (add_zero _)).symm, hstorage⟩

theorem Activity.Confined.every_schedule {p : Activity α} (hp : p.Confined P O post)
    {held : Storage → String → History}
    (harchives : ∀ store, P store → store.Archives Sound held) {host : Host Unit} {s t : Storage}
    (hs : Sound s) {steps : Nat} {calls : List Call} {u : Underway α}
    (h : Underway.Schedule host steps s (.going p) calls t u) :
    (∃ more later r a, steps + more = (p.inTurn host none s).steps ∧
      Underway.Schedule host more t u later r (.going (.done a))) ∧
    ∀ a, u = .going (.done a) → a = (p.inTurn host none s).result ∧
      (calls : Multiset Call) = (p.inTurn host none s).calls ∧
      ∀ thread, held t thread = held (p.inTurn host none s).storage thread :=
  hp.every_schedule_apart (fun store hstore => (harchives store hstore).keepsApart)
    (fun _ _ => trivial) hs h

end WorkflowGraph
