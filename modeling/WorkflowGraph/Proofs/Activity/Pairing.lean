import WorkflowGraph.Proofs.Activity.Grounded
import WorkflowGraph.Proofs.Activity.InTurn

/-!
# Two storages side by side

A pairing says what two runs of an activity have in common: hosts that answer alike, though one of
them may remember more, and stores that keep the threads apart (`Pairing`). Whatever is asked for a
thread for which both storages hold the same is answered alike, and changes nothing else, so that
the storages converge (`Storage.Converge`). For what is grounded in such threads, carrying out its
tasks in turn comes to the same (`Pairing.inTurn`).
-/

set_option autoImplicit false

namespace WorkflowGraph

open Activity

variable {σ τ H α : Type}

/-! ## Storages -/

/-- Whether two storages that have come of two others hold the same for every thread, unless it has
been left as it was in both. -/
def Storage.Converge (held : Storage → String → H) (s t s' t' : Storage) : Prop :=
  ∀ u, held t' u = held s' u ∨ held s' u = held s u ∧ held t' u = held t u

namespace Storage.Converge

variable {held : Storage → String → H} {s t s' t' r x : Storage}

theorem refl (s t : Storage) : Converge held s t s t := fun _ => .inr ⟨rfl, rfl⟩

theorem trans (h : Converge held s t s' t') (h' : Converge held s' t' r x) :
    Converge held s t r x := by
  intro u
  rcases h' u with hagree | ⟨hleft, hright⟩
  · exact .inl hagree
  · rw [hleft, hright]
    exact h u

/-- Where both have held the same they still do. -/
theorem agreed (h : Converge held s t s' t') {u : String} (hu : held t u = held s u) :
    held t' u = held s' u := by
  rcases h u with hagree | ⟨hleft, hright⟩
  · exact hagree
  · rw [hleft, hright, hu]

/-- An operation on a thread for which both hold the same. -/
theorem of_touchesOnly {Sound : Storage → Prop} {thread : String}
    {operation : Storage → α × Storage} (h : TouchesOnly Sound held thread operation)
    (hs : Sound s) (ht : Sound t) (hst : held t thread = held s thread) :
    Converge held s t (operation s).2 (operation t).2 := by
  intro u
  by_cases hu : u = thread
  · rw [hu]
    exact .inl (h.here t s ht hs hst)
  · exact .inr ⟨h.elsewhere s hs u hu, h.elsewhere t ht u hu⟩

end Storage.Converge

/-! ## Pairings -/

/-- Whether a host answers as another one does, as long as their memories are alike. -/
structure Host.Follows (like : σ → τ → Prop) (host : Host σ) (other : Host τ) : Prop where
  task : ∀ m n e r, like m n → (other.task n e r).1 = (host.task m e r).1 ∧
    like (host.task m e r).2 (other.task n e r).2
  tool : ∀ m n name arguments, like m n →
    (other.tool n name arguments).1 = (host.tool m name arguments).1 ∧
      like (host.tool m name arguments).2 (other.tool n name arguments).2

/-- What two runs of an activity have in common: hosts that answer alike, and stores that keep
threads apart, in storages that are sound. -/
structure Pairing (σ τ H : Type) where
  host : Host σ
  other : Host τ
  like : σ → τ → Prop
  stores : Store → Prop
  Sound : Storage → Prop
  held : Storage → String → H
  follows : host.Follows like other
  keeps : ∀ store, stores store → store.KeepsAnew (· ≠ "") Sound held

namespace Pairing

variable (E : Pairing σ τ H)

/-- Whether two storages hold the same for a thread. -/
def Agreed (s t : Storage) (thread : String) : Prop := E.held t thread = E.held s thread

/-- Whether two worlds may be asked alike: their memories are alike, and their storages sound. -/
structure Twinned (w : World σ) (v : World τ) : Prop where
  like : E.like w.memory v.memory
  sound : E.Sound w.storage
  sound' : E.Sound v.storage

variable {E} {w : World σ} {v : World τ} {known : String → Prop}

/-- **A call on a known thread is answered alike.** -/
theorem Twinned.answer (h : E.Twinned w v) {c : Call}
    (hc : c.On fun store thread => E.stores store ∧ thread ≠ "" ∧ known thread)
    (hknown : ∀ u, known u → E.Agreed w.storage v.storage u) :
    (c.answer E.other v).1 = (c.answer E.host w).1 ∧
      E.Twinned (c.answer E.host w).2 (c.answer E.other v).2 ∧
      Storage.Converge E.held w.storage v.storage (c.answer E.host w).2.storage
        (c.answer E.other v).2.storage := by
  have honly {α : Type} {operation : Storage → α × Storage} {thread : String}
      (hop : Storage.TouchesOnly E.Sound E.held thread operation) (hthread : known thread) :
      (operation v.storage).1 = (operation w.storage).1 ∧
        E.Twinned { w with storage := (operation w.storage).2 }
          { v with storage := (operation v.storage).2 } ∧
        Storage.Converge E.held w.storage v.storage (operation w.storage).2
          (operation v.storage).2 :=
    ⟨hop.answer _ _ h.sound' h.sound (hknown thread hthread),
      ⟨h.like, hop.sound _ h.sound, hop.sound _ h.sound'⟩,
      .of_touchesOnly hop h.sound h.sound' (hknown thread hthread)⟩
  cases c with
  | task e r =>
    obtain ⟨hsame, hlike⟩ := E.follows.task _ _ e r h.like
    exact ⟨hsame, ⟨hlike, h.sound, h.sound'⟩, .refl _ _⟩
  | tool name arguments =>
    obtain ⟨hsame, hlike⟩ := E.follows.tool _ _ name arguments h.like
    exact ⟨hsame, ⟨hlike, h.sound, h.sound'⟩, .refl _ _⟩
  | load store thread =>
    obtain ⟨hstore, hthread, hu⟩ := hc
    exact honly ((E.keeps store hstore).load thread hthread) hu
  | save store c =>
    obtain ⟨hstore, hthread, hu⟩ := hc
    exact honly ((E.keeps store hstore).save c hthread) hu
  | delete store thread =>
    obtain ⟨hstore, hthread, hu⟩ := hc
    exact honly ((E.keeps store hstore).delete thread hthread) hu
  | prune store thread keep =>
    obtain ⟨⟨hstore, hthread, hu⟩, hkeep⟩ := hc
    exact honly ((E.keeps store hstore).prune thread keep hthread hkeep) hu

/-- A thread that is forgotten becomes known, and has no checkpoint any more. -/
theorem Twinned.forget (h : E.Twinned w v) {store : Store} (hstore : E.stores store)
    {thread : String} (hthread : thread ≠ "") :
    ((store.delete w.storage thread).1 = .ok () ∧ (store.delete v.storage thread).1 = .ok ()) ∧
      (store.load (store.delete w.storage thread).2 thread = .ok none ∧
        store.load (store.delete v.storage thread).2 thread = .ok none) ∧
      E.Twinned { w with storage := (store.delete w.storage thread).2 }
        { v with storage := (store.delete v.storage thread).2 } ∧
      Storage.Converge E.held w.storage v.storage (store.delete w.storage thread).2
        (store.delete v.storage thread).2 ∧
      E.Agreed (store.delete w.storage thread).2 (store.delete v.storage thread).2 thread := by
  have hkeeps := E.keeps store hstore
  have hdelete := hkeeps.delete thread hthread
  obtain ⟨hdone, hgone⟩ := hkeeps.forgets thread hthread _ h.sound
  obtain ⟨hdone', hgone'⟩ := hkeeps.forgets thread hthread _ h.sound'
  have hanew := hkeeps.anew thread hthread _ _ h.sound' h.sound
  refine ⟨⟨hdone, hdone'⟩, ⟨hgone, hgone'⟩,
    ⟨h.like, hdelete.sound _ h.sound, hdelete.sound _ h.sound'⟩, fun u => ?_, hanew⟩
  by_cases hu : u = thread
  · rw [hu]
    exact .inl hanew
  · exact .inr ⟨hdelete.elsewhere _ h.sound u hu, hdelete.elsewhere _ h.sound' u hu⟩

end Pairing

/-! ## Coming to the same -/

/-- What an activity has come to, and the storage that it leaves. -/
def Ended.outcome (e : Ended α) : α × Storage := (e.result, e.storage)

/-- What an activity has come to in a world, and the storage that it leaves. -/
def World.outcome (r : α × World σ) : α × Storage := (r.1, r.2.storage)

/-- Whether what is done in two storages comes to the same, with a postcondition on the threads for
which they hold the same then. -/
structure Storage.Same (Sound : Storage → Prop) (held : Storage → String → H)
    (post : α → (String → Prop) → Prop) (s t : Storage) (r r' : α × Storage) : Prop where
  result : r'.1 = r.1
  sound : Sound r.2
  sound' : Sound r'.2
  storage : Converge held s t r.2 r'.2
  holds : post r.1 fun u => held r'.2 u = held r.2 u

namespace Storage.Same

variable {Sound : Storage → Prop} {held : Storage → String → H}
  {post : α → (String → Prop) → Prop} {s t : Storage} {r r' x : α × Storage}

/-- What comes to the same in one storage may stand for the other. -/
theorem of_left (h : Same Sound held post s t r r')
    (hx : Same Sound held (fun _ _ => True) s s r x) : Same Sound held post s t x r' := by
  have hheld (u : String) : held x.2 u = held r.2 u := hx.storage.agreed rfl
  have hagreed : (fun u => held r'.2 u = held x.2 u) = fun u => held r'.2 u = held r.2 u :=
    funext fun u => congrArg (held r'.2 u = ·) (hheld u)
  refine ⟨h.result.trans hx.result.symm, hx.sound', h.sound', fun u => ?_, ?_⟩
  · rw [hheld]
    exact h.storage u
  · rw [hx.result, hagreed]
    exact h.holds

theorem of_right (h : Same Sound held post s t r r')
    (hx : Same Sound held (fun _ _ => True) t t r' x) : Same Sound held post s t r x := by
  have hheld (u : String) : held x.2 u = held r'.2 u := hx.storage.agreed rfl
  have hagreed : (fun u => held x.2 u = held r.2 u) = fun u => held r'.2 u = held r.2 u :=
    funext fun u => congrArg (· = held r.2 u) (hheld u)
  refine ⟨hx.result.trans h.result, h.sound, hx.sound', fun u => ?_, ?_⟩
  · rw [hheld]
    exact h.storage u
  · rw [hagreed]
    exact h.holds

end Storage.Same

/-! ## Tasks in turn -/

namespace Pairing

variable {E : Pairing Unit Unit H}

/-- By induction on the number of tasks: what has been agreed on still is when the next one goes
on. -/
theorem same_each {count : Nat} {known : String → Prop}
    {tasks tasks' : Fin count → Storage → Ended NodeRun}
    (h : ∀ i s t, E.Sound s → E.Sound t → (∀ u, known u → E.Agreed s t u) →
      Storage.Same E.Sound E.held (fun _ _ => True) s t (tasks i s).outcome (tasks' i t).outcome)
    {s t : Storage}
    (hs : E.Sound s) (ht : E.Sound t) (hknown : ∀ u, known u → E.Agreed s t u) :
    Storage.Same E.Sound E.held (fun _ _ => True) s t (Ended.each tasks s).outcome
      (Ended.each tasks' t).outcome := by
  induction count generalizing s t with
  | zero => exact ⟨rfl, hs, ht, .refl _ _, trivial⟩
  | succ count ih =>
    have hfirst := h 0 s t hs ht hknown
    have hothers := ih (fun i => h i.succ) hfirst.sound hfirst.sound'
      fun u hu => hfirst.storage.agreed (hknown u hu)
    refine ⟨?_, hothers.sound, hothers.sound', hfirst.storage.trans hothers.storage, trivial⟩
    exact congrArg₂ List.cons hfirst.result hothers.result

/-- **What is grounded comes to the same in turn**, in two storages that agree on what is known. By
induction on the activity. -/
theorem inTurn {R : Store → Prop} {F : Prop} {known : String → Prop}
    {post : α → (String → Prop) → Prop}
    {p : Activity α} (hp : p.Grounded E.stores R F known post)
    (hlike : ∀ m n, E.like m n) {s t : Storage} (hs : E.Sound s) (ht : E.Sound t)
    (hknown : ∀ u, known u → E.Agreed s t u) (hmono : ∀ a (k l : String → Prop),
      (∀ u, k u → l u) → post a k → post a l) :
    Storage.Same E.Sound E.held post s t (p.inTurn E.host none s).outcome
      (p.inTurn E.other none t).outcome := by
  have hstart {s t : Storage} (hs : E.Sound s) (ht : E.Sound t) :
      E.Twinned (.initial () s) (.initial () t) := ⟨hlike () (), hs, ht⟩
  induction hp generalizing s t with
  | done h => exact ⟨rfl, hs, ht, .refl _ _, hmono _ _ _ hknown h⟩
  | wait _ ih =>
    have hrest := ih hs ht hknown hmono
    exact ⟨hrest.result, hrest.sound, hrest.sound', hrest.storage, hrest.holds⟩
  | @ask _ _ _ c rest hcall _ ih =>
    obtain ⟨hsame, htwinned, hconverge⟩ := (hstart hs ht).answer hcall hknown
    have hrest := ih (c.reply E.host s).1 htwinned.sound htwinned.sound'
      (fun u hu => hconverge.agreed (hknown u hu)) hmono
    have hreply : (c.reply E.other t).1 = (c.reply E.host s).1 := hsame
    refine ⟨?_, hrest.sound, ?_, hconverge.trans ?_, ?_⟩
    · simp only [Activity.inTurn, Ended.outcome, Ended.after, hreply]
      exact hrest.result
    · simp only [Activity.inTurn, Ended.outcome, Ended.after, hreply]
      exact hrest.sound'
    · simp only [Activity.inTurn, Ended.outcome, Ended.after, hreply]
      exact hrest.storage
    · simp only [Activity.inTurn, Ended.outcome, Ended.after, hreply]
      exact hrest.holds
  | @renew _ known _ store thread rest further hstore hthread hload _ ih =>
    obtain ⟨⟨hdone, hdone'⟩, ⟨hgone, hgone'⟩, htwinned, hconverge, hanew⟩ :=
      (hstart hs ht).forget hstore.1 hthread
    have hthen (u : String) (hu : u = thread ∨ known u) : E.Agreed (store.delete s thread).2
        (store.delete t thread).2 u := by
      rcases hu with rfl | hu
      · exact hanew
      · exact hconverge.agreed (hknown u hu)
    have hrest := ih htwinned.sound htwinned.sound' hthen hmono
    have hturn (host : Host Unit) (s : Storage) (hdone : (store.delete s thread).1 = .ok ())
        (hgone : store.load (store.delete s thread).2 thread = .ok none) :
        (Activity.ask (.delete store thread) rest).inTurn host none s =
          (((further (.ok none)).inTurn host none (store.delete s thread).2).after
            {.load store thread} 1).after {.delete store thread} 1 := by
      show ((rest (store.delete s thread).1).inTurn host none (store.delete s thread).2).after
        {.delete store thread} 1 = _
      rw [hdone, hload]
      show (((further (store.load (store.delete s thread).2 thread)).inTurn host none
        (store.delete s thread).2).after {.load store thread} 1).after {.delete store thread} 1 = _
      rw [hgone]
    rw [hturn E.host s hdone hgone, hturn E.other t hdone' hgone']
    exact ⟨hrest.result, hrest.sound, hrest.sound', hconverge.trans hrest.storage, hrest.holds⟩
  | @fork _ _ _ limit count task span next _ htask _ ihtask ihnext =>
    have htasks := same_each (fun i s t hs ht hknown =>
      ihtask i hs ht hknown fun _ _ _ _ _ => trivial) hs ht hknown
    have hrest := ihnext (some (Ended.each (fun i s => (task i).inTurn E.host none s) s).result) 0
      htasks.sound htasks.sound' (fun u hu => htasks.storage.agreed (hknown u hu)) hmono
    have hresult : (Ended.each (fun i s => (task i).inTurn E.other none s) t).result =
        (Ended.each (fun i s => (task i).inTurn E.host none s) s).result := htasks.result
    refine ⟨?_, hrest.sound, ?_, htasks.storage.trans ?_, ?_⟩
    · simp only [Activity.inTurn, Ended.outcome, Ended.after, hresult]
      exact hrest.result
    · simp only [Activity.inTurn, Ended.outcome, Ended.after, hresult]
      exact hrest.sound'
    · simp only [Activity.inTurn, Ended.outcome, Ended.after, hresult]
      exact hrest.storage
    · simp only [Activity.inTurn, Ended.outcome, Ended.after, hresult]
      exact hrest.holds

end Pairing

end WorkflowGraph
