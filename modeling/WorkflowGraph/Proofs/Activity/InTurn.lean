import Mathlib.Algebra.BigOperators.Fin
import WorkflowGraph.Proofs.Activity.Schedule
import WorkflowGraph.Proofs.Checkpoint.Apart
import WorkflowGraph.Proofs.Graph.Discipline

/-!
# Tasks in turn

The plainest way to carry out an activity is to carry out the tasks that it starts one after the
other (`Activity.inTurn`). This says at once what the activity comes to, and what it leaves in the
storage.

It says so for the activity as a part of something larger where the activity is confined to threads
of its own, and so is each of the tasks side by side (`Activity.Confined`). Then all that matters
for it is what these threads hold, and it changes nothing else (`Activity.Confined.inTurn`). What
tasks in turn come to is therefore what each of them comes to from the start (`Ended.gathers_each`).
-/

set_option autoImplicit false

namespace WorkflowGraph

/-! ## What an activity comes to -/

/-- The end of an activity: its result, the storage, the calls that have been made in whatever
order, and the number of steps. -/
structure Ended (α : Type) where
  result : α
  storage : Storage
  calls : Multiset Call
  steps : Nat

namespace Ended

/-- The end of an activity, from the moment before some calls and steps. -/
def after {α : Type} (e : Ended α) (calls : Multiset Call) (steps : Nat) : Ended α :=
  { e with calls := calls + e.calls, steps := steps + e.steps }

@[simp] theorem after_zero {α : Type} (e : Ended α) : e.after 0 0 = e := by
  simp only [after, zero_add]

/-- Tasks that are carried out one after the other. -/
def each : {count : Nat} → (Fin count → Storage → Ended NodeRun) → Storage → Ended (List NodeRun)
  | 0, _, s => ⟨[], s, 0, 0⟩
  | _ + 1, task, s =>
    let first := task 0 s
    let others := each (fun i => task i.succ) first.storage
    ⟨first.result :: others.result, others.storage, first.calls + others.calls,
      first.steps + others.steps⟩

end Ended

/-- Carry out an activity, and all tasks that it starts in turn. `runs` are the results of those
that have been started last. -/
def Activity.inTurn (host : Host Unit) {α : Type} :
    Activity α → Option (List NodeRun) → Storage → Ended α
  | .done a, _, s => ⟨a, s, 0, 0⟩
  | .wait _ rest, runs, s => (rest.inTurn host runs s).after 0 1
  | .ask c rest, runs, s =>
    ((rest (c.reply host s).1).inTurn host runs (c.reply host s).2).after {c} 1
  | .start _ count task rest, _, s =>
    let tasks := Ended.each (fun i s => (task i).inTurn host none s) s
    ((rest 0).inTurn host (some tasks.result) tasks.storage).after tasks.calls
      (count + 1 + tasks.steps)
  | .join _ _ rest, runs, s => ((rest runs 0).inTurn host none s).after 0 1

/-- What is left of an activity under way when all tasks are carried out in turn. -/
def Underway.inTurn (host : Host Unit) {α : Type} : Underway α → Storage → Ended α
  | .going rest, s => rest.inTurn host none s
  | .joined _ count begun tasks rest, s =>
    let tasks := Ended.each (fun i s => (tasks i).inTurn host s) s
    ((rest tasks.result).inTurn host none tasks.storage).after tasks.calls
      ((∑ i : Fin count, if begun i then 0 else 1) + 1 + tasks.steps)

/-! ## Confined activities -/

/-- Whether an activity keeps to stores of one kind and to some of their threads, whatever it is
answered, and every task that it starts to threads that no task beside it may touch. Tasks are
waited for as soon as they are started. -/
inductive Activity.Confined (P : Store → Prop) :
    {α : Type} → (String → Prop) → (α → Prop) → Activity α → Prop where
  | done {α : Type} {O : String → Prop} {post : α → Prop} {a : α} (h : post a) :
    Confined P O post (.done a)
  | wait {α : Type} {O : String → Prop} {post : α → Prop} {span : Nat} {rest : Activity α}
    (h : Confined P O post rest) : Confined P O post (.wait span rest)
  | ask {α : Type} {O : String → Prop} {post : α → Prop} {c : Call} {rest : c.Answer → Activity α}
    (hcall : c.On fun store thread => P store ∧ O thread)
    (hrest : ∀ a, Confined P O post (rest a)) : Confined P O post (.ask c rest)
  | fork {α : Type} {O : String → Prop} {post : α → Prop} {limit count : Nat}
    {task : Fin count → Activity NodeRun} {span : Option Nat}
    {next : Option (List NodeRun) → Nat → Activity α} (Os : Fin count → String → Prop)
    (hlimit : 1 ≤ limit) (hinside : ∀ i thread, Os i thread → O thread)
    (hapart : ∀ i j thread, Os i thread → Os j thread → i = j)
    (htask : ∀ i, Confined P (Os i) (fun _ => True) (task i))
    (hnext : ∀ runs, Confined P O post (next (some runs) 0)) :
    Confined P O post (.start limit count task fun group => .join group span next)

namespace Activity.Confined

variable {P : Store → Prop} {O : String → Prop} {α β : Type} {post : α → Prop} {p : Activity α}

theorem mono {U : String → Prop} {other : α → Prop} (h : p.Confined P O post)
    (hthreads : ∀ thread, O thread → U thread) (hpost : ∀ a, post a → other a) :
    p.Confined P U other := by
  induction h with
  | done h => exact .done (hpost _ h)
  | wait _ ih => exact .wait (ih hthreads hpost)
  | ask hcall _ ih =>
    exact .ask (hcall.mono fun _ _ h => ⟨h.1, hthreads _ h.2⟩) fun a => ih a hthreads hpost
  | fork Os hlimit hinside hapart htask _ _ ih =>
    exact .fork Os hlimit (fun i t h => hthreads t (hinside i t h)) hapart htask fun runs =>
      ih runs hthreads hpost

theorem bind {later : β → Prop} {next : α → Activity β} (h : p.Confined P O post)
    (hnext : ∀ a, post a → (next a).Confined P O later) : (p.bind next).Confined P O later := by
  induction h with
  | done h => exact hnext _ h
  | wait _ ih => exact .wait (ih hnext)
  | ask hcall _ ih => exact .ask hcall fun a => ih a hnext
  | fork Os hlimit hinside hapart htask _ _ ih =>
    exact .fork Os hlimit hinside hapart htask fun runs => ih runs hnext

/-- What is cut off after a span of time keeps to the same threads. Who waits for tasks spends no
time on it. -/
theorem within (h : p.Confined P O post) (budget : Nat) :
    (p.within budget).Confined P O fun r => ∀ x, r = some x → post x.1 := by
  induction h generalizing budget with
  | done h =>
    refine .done ?_
    rintro _ ⟨⟩
    exact h
  | wait _ ih =>
    unfold Activity.within
    split
    · exact .wait (ih _)
    · refine .wait (.done ?_)
      rintro _ ⟨⟩
  | ask hcall _ ih => exact .ask hcall fun a => ih a budget
  | @fork α O post limit count task span next Os hlimit hinside hapart htask _ _ ih =>
    have hfork {span : Option Nat}
        {further : Option (List NodeRun) → Nat → Activity (Option (α × Nat))}
        (hfurther : ∀ runs, further (some runs) 0 = (next (some runs) 0).within budget) :
        (Activity.start limit count task fun group => .join group span further).Confined P O
          fun r => ∀ x, r = some x → post x.1 := by
      refine .fork Os hlimit hinside hapart htask fun runs => ?_
      rw [hfurther]
      exact ih runs budget
    show (Activity.start limit count task fun group =>
      (Activity.join group span next).within budget).Confined P O fun r =>
        ∀ x, r = some x → post x.1
    unfold Activity.within
    split
    · exact hfork fun _ => rfl
    · exact hfork fun _ => rfl

theorem all {count : Nat} {tasks : Fin count → Activity NodeRun} (limit : Nat)
    (Os : Fin count → String → Prop) (hinside : ∀ i thread, Os i thread → O thread)
    (hapart : ∀ i j thread, Os i thread → Os j thread → i = j)
    (htasks : ∀ i, (tasks i).Confined P (Os i) fun _ => True) :
    (Activity.all limit (List.ofFn tasks)).Confined P O fun _ => True := by
  rw [all_ofFn]
  exact .fork Os (Nat.le_max_left _ _) hinside hapart htasks fun _ => .done trivial

/-- To be confined is a discipline. -/
def discipline (P : Store → Prop) : Discipline P fun r => ∀ e ∈ r.errors, True where
  Holds O _ post p := p.Confined P O post
  done h := .done h
  wait h := .wait h
  mono h hthreads hpost := h.mono hthreads hpost
  bind h hnext := h.bind hnext
  perform hc := .ask hc fun _ => .done trivial
  all limit _ _ Os hinside hapart htasks :=
    (Confined.all limit Os hinside hapart fun i => (htasks i).mono (fun _ h => h)
      fun _ _ => trivial).mono (fun _ h => h) fun _ _ _ _ _ _ => trivial

theorem cuts_discipline (P : Store → Prop) : (discipline P).Cuts :=
  fun _ _ _ _ budget h => h.within budget

end Activity.Confined

/-- Whether what is under way is confined. -/
inductive Underway.Confined (P : Store → Prop) :
    {α : Type} → (String → Prop) → (α → Prop) → Underway α → Prop where
  | going {α : Type} {O : String → Prop} {post : α → Prop} {rest : Activity α}
    (h : rest.Confined P O post) : Confined P O post (.going rest)
  | joined {α : Type} {O : String → Prop} {post : α → Prop} {limit count : Nat}
    {begun : Fin count → Bool} {tasks : Fin count → Underway NodeRun}
    {rest : List NodeRun → Activity α} (Os : Fin count → String → Prop) (hlimit : 1 ≤ limit)
    (hinside : ∀ i thread, Os i thread → O thread)
    (hapart : ∀ i j thread, Os i thread → Os j thread → i = j)
    (htasks : ∀ i, Confined P (Os i) (fun _ => True) (tasks i))
    (hrest : ∀ runs, (rest runs).Confined P O post) :
    Confined P O post (.joined limit count begun tasks rest)

/-! ## What matters to those who are confined -/

/-- Whether two storages hold the same on some threads. -/
def Storage.Alike {H : Type} (held : Storage → String → H) (O : String → Prop) (s t : Storage) :
    Prop :=
  ∀ thread, O thread → held s thread = held t thread

/-- Whether what is done in a storage depends on nothing but what some threads hold, and changes
nothing else. -/
structure Ended.Local {H : Type} (Sound : Storage → Prop) (held : Storage → String → H)
    (O : String → Prop) {α : Type} (f : Storage → Ended α) : Prop where
  sound : ∀ s, Sound s → Sound (f s).storage
  frame : ∀ s, Sound s → ∀ thread, ¬ O thread → held (f s).storage thread = held s thread
  result : ∀ s t, Sound s → Sound t → s.Alike held O t → (f s).result = (f t).result
  calls : ∀ s t, Sound s → Sound t → s.Alike held O t → (f s).calls = (f t).calls
  steps : ∀ s t, Sound s → Sound t → s.Alike held O t → (f s).steps = (f t).steps
  storage : ∀ s t, Sound s → Sound t → s.Alike held O t →
    (f s).storage.Alike held O (f t).storage

namespace Ended

variable {H α β : Type} {Sound : Storage → Prop} {held : Storage → String → H} {O : String → Prop}
  {f : Storage → Ended β}

theorem Local.after {f : Storage → Ended α} (h : Local Sound held O f) (calls : Multiset Call)
    (steps : Nat) : Local Sound held O fun s => (f s).after calls steps where
  sound := h.sound
  frame := h.frame
  result := h.result
  calls s t hs ht hst := congrArg (calls + ·) (h.calls s t hs ht hst)
  steps s t hs ht hst := congrArg (steps + ·) (h.steps s t hs ht hst)
  storage := h.storage

theorem Local.of_constant (a : α) (calls : Multiset Call) (steps : Nat) :
    Local Sound held O fun s => ⟨a, s, calls, steps⟩ :=
  ⟨fun _ hs => hs, fun _ _ _ _ => rfl, fun _ _ _ _ _ => rfl, fun _ _ _ _ _ => rfl,
    fun _ _ _ _ _ => rfl, fun _ _ _ _ hst => hst⟩

/-- An operation that touches one thread only. -/
theorem Local.of_touchesOnly {operation : Storage → α × Storage} {thread : String}
    (h : Storage.TouchesOnly Sound held thread operation) (hthread : O thread) (c : Call) :
    Local Sound held O fun s => ⟨(operation s).1, (operation s).2, {c}, 1⟩ := by
  refine ⟨h.sound, ?_, ?_, fun _ _ _ _ _ => rfl, fun _ _ _ _ _ => rfl, ?_⟩
  · intro s hs other hother
    apply h.elsewhere s hs
    rintro rfl
    exact hother hthread
  · exact fun s t hs ht hst => h.answer s t hs ht (hst thread hthread)
  · intro s t hs ht hst other hother
    show held (operation s).2 other = held (operation t).2 other
    by_cases hsame : other = thread
    · rw [hsame]
      exact h.here s t hs ht (hst thread hthread)
    · rw [h.elsewhere s hs other hsame, h.elsewhere t ht other hsame]
      exact hst other hother

/-- What is done in two parts, of which the second one goes on with the result of the first one. -/
theorem Local.andThen {g : β → Storage → Ended α} (hf : Local Sound held O f)
    (hg : ∀ b, Local Sound held O (g b)) (more : Nat) :
    Local Sound held O fun s =>
      (g (f s).result (f s).storage).after (f s).calls (more + (f s).steps) := by
  refine ⟨?_, ?_, ?_, ?_, ?_, ?_⟩
  · intro s hs
    exact (hg _).sound _ (hf.sound s hs)
  · intro s hs thread hthread
    have hsecond := (hg (f s).result).frame _ (hf.sound s hs) thread hthread
    exact hsecond.trans (hf.frame s hs thread hthread)
  · intro s t hs ht hst
    have hfirst := hf.storage s t hs ht hst
    have hsecond := (hg (f s).result).result _ _ (hf.sound s hs) (hf.sound t ht) hfirst
    rw [hf.result s t hs ht hst] at hsecond
    simpa only [Ended.after, hf.result s t hs ht hst] using hsecond
  · intro s t hs ht hst
    have hfirst := hf.storage s t hs ht hst
    have hsecond := (hg (f t).result).calls _ _ (hf.sound s hs) (hf.sound t ht) hfirst
    simp only [Ended.after, hf.result s t hs ht hst, hf.calls s t hs ht hst, hsecond]
  · intro s t hs ht hst
    have hfirst := hf.storage s t hs ht hst
    have hsecond := (hg (f t).result).steps _ _ (hf.sound s hs) (hf.sound t ht) hfirst
    simp only [Ended.after, hf.result s t hs ht hst, hf.steps s t hs ht hst, hsecond]
  · intro s t hs ht hst
    have hfirst := hf.storage s t hs ht hst
    have hsecond := (hg (f t).result).storage _ _ (hf.sound s hs) (hf.sound t ht) hfirst
    simpa only [Ended.after, hf.result s t hs ht hst] using hsecond

/-- What tasks come to that have been carried out one after the other: what each of them comes to
from the start. -/
structure Gathers {H : Type} (Sound : Storage → Prop) (held : Storage → String → H) {count : Nat}
    (Os : Fin count → String → Prop) (ends : Fin count → Ended NodeRun) (s : Storage)
    (e : Ended (List NodeRun)) : Prop where
  result : e.result = List.ofFn fun i => (ends i).result
  calls : e.calls = ∑ i, (ends i).calls
  steps : e.steps = ∑ i, (ends i).steps
  sound : Sound e.storage
  inside : ∀ i thread, Os i thread → held e.storage thread = held (ends i).storage thread
  outside : ∀ thread, (∀ i, ¬ Os i thread) → held e.storage thread = held s thread

/-- By induction on the number of tasks: none of those behind the first one notices it. -/
theorem gathers_each {count : Nat} {tasks : Fin count → Storage → Ended NodeRun}
    {Os : Fin count → String → Prop} (hlocal : ∀ i, Local Sound held (Os i) (tasks i))
    (hapart : ∀ i j thread, Os i thread → Os j thread → i = j) {s : Storage} (hs : Sound s) :
    Gathers Sound held Os (fun i => tasks i s) s (each tasks s) := by
  induction count generalizing s with
  | zero => exact ⟨rfl, rfl, rfl, hs, fun i => i.elim0, fun _ _ => rfl⟩
  | succ count ih =>
    have hfirst := (hlocal 0).sound s hs
    have hothers := ih (fun i => hlocal i.succ)
      (fun i j thread hi hj => Fin.succ_injective _ (hapart i.succ j.succ thread hi hj)) hfirst
    have hunchanged (i : Fin count) : (tasks 0 s).storage.Alike held (Os i.succ) s := by
      intro thread hthread
      refine (hlocal 0).frame s hs thread fun hzero => ?_
      exact absurd (hapart 0 i.succ thread hzero hthread) (Fin.succ_ne_zero i).symm
    have hresult (i : Fin count) := (hlocal i.succ).result _ s hfirst hs (hunchanged i)
    have hcalls (i : Fin count) := (hlocal i.succ).calls _ s hfirst hs (hunchanged i)
    have hsteps (i : Fin count) := (hlocal i.succ).steps _ s hfirst hs (hunchanged i)
    have hstorage (i : Fin count) := (hlocal i.succ).storage _ s hfirst hs (hunchanged i)
    refine ⟨?_, ?_, ?_, hothers.sound, ?_, ?_⟩
    · simp only [each, List.ofFn_succ, hothers.result, hresult]
    · simp only [each, Fin.sum_univ_succ, hothers.calls, hcalls]
    · simp only [each, Fin.sum_univ_succ, hothers.steps, hsteps]
    · intro i thread hthread
      cases i using Fin.cases with
      | zero =>
        refine hothers.outside thread fun i hi => ?_
        exact absurd (hapart 0 i.succ thread hthread hi) (Fin.succ_ne_zero i).symm
      | succ i => exact (hothers.inside i thread hthread).trans (hstorage i thread hthread)
    · intro thread hthread
      have hlater := hothers.outside thread fun i => hthread i.succ
      exact hlater.trans ((hlocal 0).frame s hs thread (hthread 0))

theorem Local.each {count : Nat} {tasks : Fin count → Storage → Ended NodeRun}
    {Os : Fin count → String → Prop} (hlocal : ∀ i, Local Sound held (Os i) (tasks i))
    (hinside : ∀ i thread, Os i thread → O thread)
    (hapart : ∀ i j thread, Os i thread → Os j thread → i = j) :
    Local Sound held O (each tasks) := by
  have hgathers (s : Storage) (hs : Sound s) := gathers_each hlocal hapart hs
  have halike {s t : Storage} (hst : s.Alike held O t) (i : Fin count) : s.Alike held (Os i) t :=
    fun thread hthread => hst thread (hinside i thread hthread)
  refine ⟨fun s hs => (hgathers s hs).sound, ?_, ?_, ?_, ?_, ?_⟩
  · intro s hs thread hthread
    exact (hgathers s hs).outside thread fun i hi => hthread (hinside i thread hi)
  · intro s t hs ht hst
    rw [(hgathers s hs).result, (hgathers t ht).result]
    exact congrArg _ (funext fun i => (hlocal i).result s t hs ht (halike hst i))
  · intro s t hs ht hst
    rw [(hgathers s hs).calls, (hgathers t ht).calls]
    exact Finset.sum_congr rfl fun i _ => (hlocal i).calls s t hs ht (halike hst i)
  · intro s t hs ht hst
    rw [(hgathers s hs).steps, (hgathers t ht).steps]
    exact Finset.sum_congr rfl fun i _ => (hlocal i).steps s t hs ht (halike hst i)
  · intro s t hs ht hst thread hthread
    by_cases hsome : ∃ i, Os i thread
    · obtain ⟨i, hi⟩ := hsome
      rw [(hgathers s hs).inside i thread hi, (hgathers t ht).inside i thread hi]
      exact (hlocal i).storage s t hs ht (halike hst i) thread hi
    · have hnone : ∀ i, ¬ Os i thread := fun i hi => hsome ⟨i, hi⟩
      rw [(hgathers s hs).outside thread hnone, (hgathers t ht).outside thread hnone]
      exact hst thread hthread

end Ended

section Apart

variable {H : Type} {P : Store → Prop} {Sound : Storage → Prop} {held : Storage → String → H}
  {O T : String → Prop} (hkeeps : ∀ store, P store → store.KeepsApart T Sound held)
  (hthreads : ∀ thread, O thread → T thread) (host : Host Unit)

include hkeeps hthreads

/-- A call on a thread depends on what the thread holds, and changes this thread only. -/
theorem Call.On.answer_apart {σ : Type} (host : Host σ) (w : World σ) {c : Call}
    (hc : c.On fun store thread => P store ∧ O thread) :
    Ended.Local Sound held O fun s =>
      let r := c.answer host { w with storage := s }
      (⟨(r.1, r.2.memory), r.2.storage, {c}, 1⟩ : Ended (c.Answer × σ)) := by
  -- What is told apart from the answer does not depend on the storage.
  have hwith {α : Type} {operation : Storage → α × Storage} {thread : String}
      (h : Storage.TouchesOnly Sound held thread operation) :
      Storage.TouchesOnly Sound held thread
        fun s => (((operation s).1, w.memory), (operation s).2) :=
    ⟨h.sound, h.elsewhere, fun s t hs ht hst => congrArg (·, w.memory) (h.answer s t hs ht hst),
      h.here⟩
  cases c with
  | task e r => exact .of_constant (host.task w.memory e r) _ _
  | tool name arguments => exact .of_constant (host.tool w.memory name arguments) _ _
  | load store thread =>
    obtain ⟨hstore, hthread⟩ := hc
    exact .of_touchesOnly (hwith ((hkeeps store hstore).load thread (hthreads _ hthread))) hthread _
  | save store c =>
    obtain ⟨hstore, hthread⟩ := hc
    exact .of_touchesOnly (hwith ((hkeeps store hstore).save c (hthreads _ hthread))) hthread _
  | delete store thread =>
    obtain ⟨hstore, hthread⟩ := hc
    exact .of_touchesOnly (hwith ((hkeeps store hstore).delete thread (hthreads _ hthread)))
      hthread _
  | prune store thread keep =>
    obtain ⟨⟨hstore, hthread⟩, hkeep⟩ := hc
    exact .of_touchesOnly (hwith ((hkeeps store hstore).prune thread keep (hthreads _ hthread) hkeep))
      hthread _

theorem Call.On.reply_apart (host : Host Unit) {c : Call}
    (hc : c.On fun store thread => P store ∧ O thread) :
    Ended.Local Sound held O fun s =>
      (⟨(c.reply host s).1, (c.reply host s).2, {c}, 1⟩ : Ended c.Answer) := by
  have hanswer := hc.answer_apart hkeeps hthreads host (.initial () .empty)
  refine ⟨hanswer.sound, hanswer.frame, fun s t hs ht hst => ?_, hanswer.calls, hanswer.steps,
    hanswer.storage⟩
  have hresult := hanswer.result s t hs ht hst
  exact (Prod.mk.inj hresult).1

/-- **Who is confined to threads notices no others.** -/
theorem Activity.Confined.inTurn_apart {α : Type} {post : α → Prop} {p : Activity α}
    (h : p.Confined P O post) : Ended.Local Sound held O (p.inTurn host none) := by
  induction h with
  | done h => exact .of_constant _ _ _
  | wait _ ih => exact (ih hthreads).after 0 1
  | ask hcall _ ih =>
    exact (hcall.reply_apart hkeeps hthreads host).andThen (fun a => ih a hthreads) 0
  | fork Os hlimit hinside hapart htask hnext ihtask ihnext =>
    have hparts (i : Fin _) := ihtask i fun thread h => hthreads thread (hinside i thread h)
    exact (Ended.Local.each hparts hinside hapart).andThen
      (fun runs => (ihnext runs hthreads).after 0 1) _

theorem Underway.Confined.inTurn_apart {α : Type} {post : α → Prop} {u : Underway α}
    (h : u.Confined P O post) : Ended.Local Sound held O (u.inTurn host) := by
  induction h with
  | going h => exact h.inTurn_apart hkeeps hthreads host
  | joined Os hlimit hinside hapart htasks hrest ih =>
    have hparts (i : Fin _) := ih i fun thread h => hthreads thread (hinside i thread h)
    exact (Ended.Local.each hparts hinside hapart).andThen
      (fun runs => (hrest runs).inTurn_apart hkeeps hthreads host) _

end Apart

section Archives

variable {P : Store → Prop} {Sound : Storage → Prop} {held : Storage → String → History}
  {O : String → Prop} (harchives : ∀ store, P store → store.Archives Sound held)

include harchives

theorem Call.On.answer_local {σ : Type} (host : Host σ) (w : World σ) {c : Call}
    (hc : c.On fun store thread => P store ∧ O thread) :
    Ended.Local Sound held O fun s =>
      let r := c.answer host { w with storage := s }
      (⟨(r.1, r.2.memory), r.2.storage, {c}, 1⟩ : Ended (c.Answer × σ)) :=
  hc.answer_apart (fun store hstore => (harchives store hstore).keepsApart) (fun _ _ => trivial)
    host w

theorem Activity.Confined.inTurn (host : Host Unit) {α : Type} {post : α → Prop} {p : Activity α}
    (h : p.Confined P O post) : Ended.Local Sound held O (p.inTurn host none) :=
  h.inTurn_apart (fun store hstore => (harchives store hstore).keepsApart) (fun _ _ => trivial)
    host

end Archives

end WorkflowGraph
