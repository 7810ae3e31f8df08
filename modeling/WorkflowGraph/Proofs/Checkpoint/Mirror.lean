import Mathlib.Data.List.Induction
import WorkflowGraph.Proofs.Checkpoint.FolderChanges

/-!
# A folder of checkpoints as a memory

What is done to a folder and to the memory alike is read from both alike, with one exception: the
thread without a name. Its folder is the store's own, so whoever forgets this thread forgets all, and
other threads whose folders bear a number add steps to it. So every named thread is read from a folder
as from memory exactly as long as the thread without a name is only forgotten where no other thread has
a checkpoint, and this thread itself as long as, besides, every number that another thread's folder
bears is one of its own steps (`folder_mirrors_memory_iff`). Which folders stand after changes is read
off the changes alone (`FolderStore.Owns.arranged`).
-/

set_option autoImplicit false

namespace WorkflowGraph

/-! ## Changes -/

/-- One thing that is done with a store. -/
inductive StoreChange where
  | save (c : Checkpoint)
  | delete (thread : String)
  | deleteStep (thread : String) (step : Nat)
  | prune (thread : String) (keep : Nat)

namespace StoreChange

/-- Do it. -/
def perform (change : StoreChange) (store : Store) (s : Storage) :
    Except StoreError Unit × Storage :=
  match change with
  | save c => store.save s c
  | delete thread => store.delete s thread
  | deleteStep thread step => store.deleteStep s thread step
  | prune thread keep =>
    let (gone, s) := store.prune s thread keep
    (gone.map fun _ => (), s)

/-- Whether a thread with a name has a folder of its own after something has been done, given whether
it had one before. A folder stays when the last checkpoint in it goes. -/
def stands (change : StoreChange) (thread : String) (before : Bool) : Bool :=
  match change with
  | save c => before || c.thread == thread
  | delete other => before && other != thread && other != ""
  | deleteStep _ _ => before
  | prune _ _ => before

end StoreChange

/-- What is kept after changes one after another. -/
def Store.after (store : Store) (s : Storage) (changes : List StoreChange) : Storage :=
  changes.foldl (fun s change => (change.perform store s).2) s

/-- Whether all changes succeed. -/
def Store.Completes (store : Store) (s : Storage) (changes : List StoreChange) : Prop :=
  ∀ done change, done ++ [change] <+: changes →
    (change.perform store (store.after s done)).1 = .ok ()

/-- Whether a thread has a folder of its own after changes. -/
def standsAfter (thread : String) (changes : List StoreChange) : Bool :=
  changes.foldl (fun before change => change.stands thread before) false

theorem Store.completes_nil (store : Store) (s : Storage) : store.Completes s [] := by
  intro done change h
  have := h.length_le
  simp at this

theorem Store.completes_cons {store : Store} {s : Storage} {change : StoreChange}
    {changes : List StoreChange} (hfirst : (change.perform store s).1 = .ok ())
    (hrest : store.Completes (change.perform store s).2 changes) :
    store.Completes s (change :: changes) := by
  intro done next h
  cases done with
  | nil =>
    obtain ⟨rfl, -⟩ := List.cons_prefix_cons.1 h
    exact hfirst
  | cons first rest =>
    obtain ⟨rfl, hnext⟩ := List.cons_prefix_cons.1 h
    exact hrest rest next hnext

theorem Store.after_concat (store : Store) (s : Storage) (changes : List StoreChange)
    (change : StoreChange) :
    store.after s (changes ++ [change]) = (change.perform store (store.after s changes)).2 :=
  List.foldl_concat _ _ _ _

theorem standsAfter_concat (thread : String) (changes : List StoreChange) (change : StoreChange) :
    standsAfter thread (changes ++ [change]) = change.stands thread (standsAfter thread changes) :=
  List.foldl_concat _ _ _ _

/-! ## The property -/

/-- Whether a thread is read alike from two stores: its latest checkpoint, the checkpoint of every
step, and its steps. -/
structure Store.ReadsAs (store : Store) (s : Storage) (other : Store) (r : Storage)
    (thread : String) : Prop where
  load : store.load s thread = other.load r thread
  loadStep : ∀ step, store.loadStep s thread step = other.loadStep r thread step
  history : store.history s thread = other.history r thread

namespace FolderStore

variable {f : FolderStore} {s r : Storage} {thread other : String} {change : StoreChange}
  {changes : List StoreChange}

/-- Whether a thread is read from a folder as from memory, after the same changes. -/
def Mirrors (f : FolderStore) (s : Storage) (changes : List StoreChange) (thread : String) : Prop :=
  (Store.folder f).ReadsAs ((Store.folder f).after s changes) .memory
    (Store.memory.after s changes) thread

/-- Whether a folder is there for a store alone, and there is nothing in it yet. -/
structure Owns (f : FolderStore) (t : FileTree) : Prop where
  settled : f.Settled
  sound : t.Sound
  root : t.isFolder = true
  fresh : t.find? f.base = none ∨ t.find? f.base = some .empty

/-- Whether the thread without a name is only forgotten where no other thread has a checkpoint. -/
def ForgetsAlone (s : Storage) (changes : List StoreChange) : Prop :=
  ∀ done, done ++ [.delete ""] <+: changes → ∀ thread, thread ≠ "" →
    Store.memory.load (Store.memory.after s done) thread = .ok none

/-- Whether every number that the folder of a named thread bears, as long as it stands, is a step of
the thread without a name. -/
def NumbersAgree (s : Storage) (changes : List StoreChange) : Prop :=
  ∀ done, done <+: changes → ∀ thread step, thread ≠ "" → standsAfter thread done = true →
    stepOf? (Text.Percent.encode thread) = some step →
      step ∈ (Store.memory.after s done).memory.history ""

end FolderStore

/-! ## What a change leaves of the folders -/

namespace FolderStore

variable {f : FolderStore} {s : Storage} {t t' : FileTree} {thread other : String}
  {change : StoreChange} {changes : List StoreChange}

/-- Whether a change succeeds on the files of a folder, and what it makes of them. -/
def Turns (f : FolderStore) (change : StoreChange) (t t' : FileTree) : Prop :=
  match change with
  | .save c => f.save t c = (.ok (), t')
  | .delete thread => f.delete t thread = (.ok (), t')
  | .deleteStep thread step => f.deleteStep t thread step = (.ok (), t')
  | .prune thread keep => ∃ gone, f.prune t thread keep = (.ok gone, t')

theorem turns_of_perform (h : (change.perform (.folder f) s).1 = .ok ()) :
    f.Turns change s.files (change.perform (.folder f) s).2.files := by
  cases change with
  | save c => exact Prod.ext h rfl
  | delete thread => exact Prod.ext h rfl
  | deleteStep thread step => exact Prod.ext h rfl
  | prune thread keep =>
    simp only [StoreChange.perform, Store.prune] at h ⊢
    cases hres : f.prune s.files thread keep with
    | mk gone t' =>
      rw [hres] at h
      cases gone with
      | error e => cases h
      | ok count => exact ⟨count, hres⟩

/-- Whether a change leaves a tidy tree, and gives or takes away the folders of threads as it should. -/
structure Arranges (f : FolderStore) (change : StoreChange) (t t' : FileTree) : Prop where
  tidy : f.Tidy t'
  stands : ∀ thread, thread ≠ "" →
    t'.has (f.home thread) = change.stands thread (t.has (f.home thread))

/-- An operation that leaves the folder of its own thread standing leaves all folders standing. -/
theorem Alters.stands_all {change : History → History} (ha : f.Alters t thread change t')
    (hhas : t'.has (f.home thread) = t.has (f.home thread)) (hother : other ≠ "") :
    t'.has (f.home other) = t.has (f.home other) := by
  by_cases h : other = thread
  · rw [h]
    exact hhas
  · exact ha.stands other hother h

/-- The folder of a thread is there once a checkpoint of it has been saved. -/
theorem Places.arranges {c : Checkpoint} (h : f.Places t c t') : f.Arranges (.save c) t t' := by
  refine ⟨h.tidy, fun thread hthread => ?_⟩
  rw [StoreChange.stands]
  by_cases heq : c.thread = thread
  · subst heq
    simp [h.home]
  · rw [h.stands thread hthread (Ne.symm heq)]
    simp [heq]

/-- The folder of a thread is gone once the thread has been forgotten, and so are all folders once the
thread without a name has been. -/
theorem delete_arranges (hf : f.Settled) (ht : f.Tidy t) (h : f.delete t thread = (.ok (), t')) :
    f.Arranges (.delete thread) t t' := by
  by_cases hthread : thread = ""
  · subst hthread
    obtain ⟨htidy, hbare⟩ := delete_unnamed hf ht h
    refine ⟨htidy, fun other hother => ?_⟩
    rw [FileTree.has, hbare.find?_home hother]
    simp [StoreChange.stands]
  · obtain ⟨halters, hhas⟩ := delete_alters hf ht hthread h
    refine ⟨halters.tidy, fun other hother => ?_⟩
    rw [StoreChange.stands]
    by_cases heq : thread = other
    · subst heq
      simp [hhas]
    · rw [halters.stands other hother (Ne.symm heq)]
      rw [bne_iff_ne.2 heq, bne_iff_ne.2 hthread, Bool.and_true, Bool.and_true]

theorem Turns.arranges (hf : f.Settled) (ht : f.Tidy t) (h : f.Turns change t t')
    (hstep : ∀ c, change = .save c → c.step < UInt64.size) : f.Arranges change t t' := by
  cases change with
  | save c => exact (save_places hf ht (hstep c rfl) h).arranges
  | delete thread => exact delete_arranges hf ht h
  | deleteStep thread step =>
    obtain ⟨halters, hhas⟩ := deleteStep_alters hf ht h
    exact ⟨halters.tidy, fun other hother => halters.stands_all hhas hother⟩
  | prune thread keep =>
    obtain ⟨gone, h⟩ := h
    obtain ⟨steps, -, hsteps⟩ := prune_eq_ok h
    obtain ⟨halters, hhas⟩ := deleteSteps_alters hf ht hsteps
    exact ⟨halters.tidy, fun other hother => halters.stands_all hhas hother⟩

theorem Owns.bare (h : f.Owns t) : f.Bare t := by
  intro name rest
  rw [FileTree.find?_append]
  rcases h.fresh with hnone | hempty
  · rw [hnone]
    rfl
  · rw [hempty]
    rfl

theorem Owns.tidy (h : f.Owns t) : f.Tidy t := by
  refine h.bare.tidy h.sound (FileTree.isOpen_of_isFolder rfl h.root) fun x hx => ?_
  rcases h.fresh with hnone | hempty
  · rw [hnone] at hx
    cases hx
  · rw [hempty] at hx
    cases hx
    rfl

/-- Changes that all succeed leave a tidy tree, with the folders of those threads that the changes
say. By induction on the changes, the last one of which arranges what those before it have left. -/
theorem Owns.arranged (h : f.Owns s.files) (hdone : (Store.folder f).Completes s changes)
    (hstep : ∀ c, .save c ∈ changes → c.step < UInt64.size) :
    f.Tidy ((Store.folder f).after s changes).files ∧
      ∀ thread, thread ≠ "" → ((Store.folder f).after s changes).files.has (f.home thread) =
        standsAfter thread changes := by
  induction changes using List.reverseRecOn with
  | nil =>
    refine ⟨h.tidy, fun thread hthread => ?_⟩
    show s.files.has (f.home thread) = false
    rw [FileTree.has, h.bare.find?_home hthread]
    rfl
  | append_singleton changes change ih =>
    obtain ⟨htidy, hstands⟩ := ih
      (fun done next hnext => hdone done next (hnext.trans (List.prefix_append _ _)))
      (fun c hc => hstep c (List.mem_append_left _ hc))
    have hturns := turns_of_perform (hdone changes change (List.prefix_refl _))
    have harranges := hturns.arranges h.settled htidy fun c hc => hstep c (by simp [hc])
    rw [Store.after_concat]
    refine ⟨harranges.tidy, fun thread hthread => ?_⟩
    rw [harranges.stands thread hthread, hstands thread hthread, standsAfter_concat]

end FolderStore

/-! ## Forgetting steps in memory -/

/-- Forgetting steps one after another takes them from the history of their thread. By induction on
the steps. -/
theorem MemoryStore.Sound.foldl_deleteStep_drops {m : MemoryStore} (hm : m.Sound) (thread : String)
    (steps : List Nat) :
    (steps.foldl (fun m step => m.deleteStep thread step) m).Sound ∧
      ∀ other, (steps.foldl (fun m step => m.deleteStep thread step) m).historyOf other =
        if thread = other then steps.foldl History.drop (m.historyOf thread)
        else m.historyOf other := by
  induction steps generalizing m with
  | nil =>
    refine ⟨hm, fun other => ?_⟩
    split
    · next h => exact h ▸ rfl
    · rfl
  | cons step rest ih =>
    obtain ⟨hsound, hafter⟩ := ih (hm.deleteStep thread step)
    refine ⟨hsound, fun other => (hafter other).trans ?_⟩
    rw [hm.historyOf_deleteStep, hm.historyOf_deleteStep, if_pos rfl]
    split
    · rfl
    · rfl

namespace FolderStore

variable {f : FolderStore} {s r : Storage} {thread other : String} {change : StoreChange}
  {changes : List StoreChange} {T : String → Prop}

/-! ## What a change keeps -/

/-- Whether a tidy tree holds for some threads what the memory holds for them. -/
structure Keeps (f : FolderStore) (T : String → Prop) (t : FileTree) (m : MemoryStore) : Prop where
  tidy : f.Tidy t
  sound : m.Sound
  holds : ∀ thread, T thread → f.Holds t thread (m.historyOf thread)

/-- What alters a thread's history in the folder as in memory keeps the two alike. -/
theorem Keeps.alter {t t' : FileTree} {m m' : MemoryStore} {change : History → History}
    {h : History} (hk : f.Keeps T t m) (ha : f.Alters t thread change t') (hm : m'.Sound)
    (hhistory : ∀ other, m'.historyOf other = if thread = other then h else m.historyOf other)
    (hchange : T thread → change (m.historyOf thread) = h) : f.Keeps T t' m' := by
  refine ⟨ha.tidy, hm, fun other hother => ?_⟩
  rw [hhistory]
  split
  · next heq =>
    subst heq
    rw [← hchange hother]
    exact ha.here _ (hk.holds thread hother)
  · next hne => exact ha.elsewhere other (Ne.symm hne) _ (hk.holds other hother)

/-- The steps of a thread are read from the folder as from memory, for the thread without a name if
this is known. -/
theorem Keeps.history (hf : f.Settled) {t : FileTree} {m : MemoryStore} (hk : f.Keeps T t m)
    (hthread : T thread) (hunnamed : thread = "" → f.history t "" = .ok (m.history "")) :
    f.history t thread = .ok (m.history thread) := by
  by_cases h : thread = ""
  · rw [h]
    exact hunnamed h
  · exact ((hk.holds thread hthread).history_iff hf hk.tidy).2 fun _ hempty => absurd hempty h

theorem Keeps.save (hf : f.Settled) {t t' : FileTree} {m : MemoryStore} (hk : f.Keeps T t m)
    {c : Checkpoint} (hstep : c.step < UInt64.size)
    (hread : checkpointOf (Json.pretty c.toValue) = .ok c) (h : f.save t c = (.ok (), t')) :
    f.Keeps T t' (m.save c) := by
  obtain ⟨halters, -⟩ := save_alters hf hk.tidy hstep hread h
  refine hk.alter halters (hk.sound.save c) (fun other => ?_) fun _ => rfl
  rw [MemoryStore.historyOf_save]
  split
  · next heq => rw [heq]
  · rfl

theorem Keeps.delete (hf : f.Settled) {t t' : FileTree} {m : MemoryStore} (hk : f.Keeps T t m)
    (hthread : thread ≠ "") (h : f.delete t thread = (.ok (), t')) :
    f.Keeps T t' (m.delete thread) :=
  hk.alter (delete_alters hf hk.tidy hthread h).1 (hk.sound.delete thread)
    (hk.sound.historyOf_delete thread) fun _ => rfl

/-- Forgetting the thread without a name forgets all, so the memory must hold no other thread. -/
theorem Keeps.delete_unnamed (hf : f.Settled) {t t' : FileTree} {m : MemoryStore}
    (hk : f.Keeps T t m) (hnone : ∀ other, other ≠ "" → T other → m.historyOf other = [])
    (h : f.delete t "" = (.ok (), t')) : f.Keeps T t' (m.delete "") := by
  obtain ⟨htidy, hbare⟩ := FolderStore.delete_unnamed hf hk.tidy h
  refine ⟨htidy, hk.sound.delete "", fun other hother => ?_⟩
  have hnil : (m.delete "").historyOf other = [] := by
    rw [hk.sound.historyOf_delete]
    split
    · rfl
    · next hne => exact hnone other (Ne.symm hne) hother
  rw [hnil]
  exact holds_nil (hbare.find?_inside other)

theorem Keeps.deleteStep (hf : f.Settled) {t t' : FileTree} {m : MemoryStore}
    (hk : f.Keeps T t m) {step : Nat} (h : f.deleteStep t thread step = (.ok (), t')) :
    f.Keeps T t' (m.deleteStep thread step) :=
  hk.alter (deleteStep_alters hf hk.tidy h).1 (hk.sound.deleteStep thread step)
    (hk.sound.historyOf_deleteStep thread step) fun _ => rfl

/-- The same steps are pruned where the same steps are read. -/
theorem Keeps.prune (hf : f.Settled) {t t' : FileTree} {m : MemoryStore} (hk : f.Keeps T t m)
    {keep gone : Nat} (hunnamed : T "" → f.history t "" = .ok (m.history ""))
    (h : f.prune t thread keep = (.ok gone, t')) : f.Keeps T t' (m.prune thread keep).2 := by
  obtain ⟨steps, hhistory, hsteps⟩ := prune_eq_ok h
  obtain ⟨halters, -⟩ := deleteSteps_alters hf hk.tidy hsteps
  obtain ⟨hsound, hafter⟩ := hk.sound.foldl_deleteStep_drops thread
    ((m.history thread).take ((m.history thread).length - keep))
  refine hk.alter halters hsound hafter fun hthread => ?_
  have hsame := hk.history hf hthread fun heq => hunnamed (heq ▸ hthread)
  rw [hhistory] at hsame
  cases hsame
  rfl

/-- **What is done to both keeps the memory's histories in the folder**, provided that the right steps
are pruned and that only the thread without a name goes when it is forgotten. -/
theorem Keeps.perform (hf : f.Settled) (hk : f.Keeps T s.files r.memory)
    (hdone : (change.perform (.folder f) s).1 = .ok ())
    (hread : ∀ c, change = .save c →
      c.step < UInt64.size ∧ checkpointOf (Json.pretty c.toValue) = .ok c)
    (hprune : T "" → f.history s.files "" = .ok (r.memory.history ""))
    (hdelete : change = .delete "" → ∀ other, other ≠ "" → T other →
      r.memory.historyOf other = []) :
    f.Keeps T (change.perform (.folder f) s).2.files (change.perform .memory r).2.memory := by
  have hturns := turns_of_perform hdone
  cases change with
  | save c => exact hk.save hf (hread c rfl).1 (hread c rfl).2 hturns
  | delete thread =>
    by_cases hthread : thread = ""
    · subst hthread
      exact hk.delete_unnamed hf (hdelete rfl) hturns
    · exact hk.delete hf hthread hturns
  | deleteStep thread step => exact hk.deleteStep hf hturns
  | prune thread keep =>
    obtain ⟨gone, hturns⟩ := hturns
    exact hk.prune hf hprune hturns

/-! ## What is read -/

/-- A thread that is kept is read alike, except that other folders may add steps to the thread without
a name. -/
theorem Keeps.readsAs_iff (hf : f.Settled) (hk : f.Keeps T s.files r.memory) (hthread : T thread) :
    (Store.folder f).ReadsAs s .memory r thread ↔
      ∀ step, thread = "" → f.Strays s.files step → step ∈ r.memory.history "" := by
  have hholds := hk.holds thread hthread
  have hsteps : f.history s.files thread = .ok (r.memory.history thread) ↔
      ∀ step, thread = "" → f.Strays s.files step → step ∈ r.memory.history "" := by
    rw [MemoryStore.history, hholds.history_iff hf hk.tidy]
    constructor
    · intro h step hempty hstray
      have := h step hempty hstray
      rw [hempty] at this
      exact this
    · intro h step hempty hstray
      rw [hempty]
      exact h step hempty hstray
  rw [← hsteps]
  constructor
  · exact fun hreads => hreads.history
  · exact fun hhistory => ⟨hholds.load hf hk.tidy hhistory, hholds.loadStep hf hk.tidy, hhistory⟩

/-! ## What a sequence of changes keeps -/

/-- Whether, after changes, the folder keeps what the memory holds for some threads, and the threads
with a name have folders as the changes say. -/
def Agrees (f : FolderStore) (T : String → Prop) (s : Storage) (changes : List StoreChange) : Prop :=
  f.Keeps T ((Store.folder f).after s changes).files (Store.memory.after s changes).memory ∧
    ∀ thread, thread ≠ "" → ((Store.folder f).after s changes).files.has (f.home thread) =
      standsAfter thread changes

/-- Changes that all succeed keep the two alike. By induction on the changes, the last one of which
keeps what those before it have left. -/
theorem Owns.agrees (h : f.Owns s.files) (hmemory : s.memory = .empty)
    (hdone : (Store.folder f).Completes s changes)
    (hread : ∀ c, .save c ∈ changes →
      c.step < UInt64.size ∧ checkpointOf (Json.pretty c.toValue) = .ok c)
    (hprune : ∀ done, done <+: changes → T "" → f.Agrees T s done →
      f.history ((Store.folder f).after s done).files "" =
        .ok ((Store.memory.after s done).memory.history ""))
    (hdelete : ∀ done, done ++ [.delete ""] <+: changes → ∀ other, other ≠ "" → T other →
      (Store.memory.after s done).memory.historyOf other = []) : f.Agrees T s changes := by
  refine ⟨?_, (h.arranged hdone fun c hc => (hread c hc).1).2⟩
  induction changes using List.reverseRecOn with
  | nil =>
    refine ⟨h.tidy, ?_, fun thread _ => ?_⟩
    · show s.memory.Sound
      rw [hmemory]
      exact MemoryStore.sound_empty
    · show f.Holds s.files thread (s.memory.historyOf thread)
      rw [hmemory]
      exact holds_nil (h.bare.find?_inside thread)
  | append_singleton changes change ih =>
    have hfront : changes <+: changes ++ [change] := List.prefix_append _ _
    have hdone' : (Store.folder f).Completes s changes :=
      fun done next hnext => hdone done next (hnext.trans hfront)
    have hread' : ∀ c, .save c ∈ changes →
        c.step < UInt64.size ∧ checkpointOf (Json.pretty c.toValue) = .ok c :=
      fun c hc => hread c (List.mem_append_left _ hc)
    have hkeeps := ih hdone' hread'
      (fun done hpart => hprune done (hpart.trans hfront))
      (fun done hpart => hdelete done (hpart.trans hfront))
    rw [Store.after_concat, Store.after_concat]
    exact hkeeps.perform h.settled
      (hdone changes change (List.prefix_refl _))
      (fun c hc => hread c (by simp [hc]))
      (fun hunnamed => hprune changes hfront hunnamed
        ⟨hkeeps, (h.arranged hdone' fun c hc => (hread' c hc).1).2⟩)
      (fun hc => hdelete changes (hc ▸ List.prefix_refl _))

/-- Folders of other threads add only steps of the thread without a name, as far as the changes say. -/
theorem Agrees.strays_iff (h : f.Agrees T s changes) :
    (∀ step, f.Strays ((Store.folder f).after s changes).files step →
      step ∈ (Store.memory.after s changes).memory.history "") ↔
    ∀ thread step, thread ≠ "" → standsAfter thread changes = true →
      stepOf? (Text.Percent.encode thread) = some step →
        step ∈ (Store.memory.after s changes).memory.history "" := by
  constructor
  · intro hall thread step hthread hstands hstep
    refine hall step ⟨thread, hthread, hstep, ?_⟩
    rw [h.2 thread hthread]
    exact hstands
  · rintro hall step ⟨thread, hthread, hstep, hhas⟩
    rw [h.2 thread hthread] at hhas
    exact hall thread step hthread hhas hstep

theorem Agrees.mirrors_iff (hf : f.Settled) (h : f.Agrees T s changes) (hthread : T thread) :
    f.Mirrors s changes thread ↔
      (thread = "" → ∀ other step, other ≠ "" → standsAfter other changes = true →
        stepOf? (Text.Percent.encode other) = some step →
          step ∈ (Store.memory.after s changes).memory.history "") := by
  rw [← h.strays_iff, Mirrors, h.1.readsAs_iff hf hthread]
  exact ⟨fun hall hempty step => hall step hempty, fun hall step hempty => hall hempty step⟩

theorem load_eq_none_iff {m : MemoryStore} : m.load thread = none ↔ m.historyOf thread = [] := by
  constructor
  · exact History.eq_nil_of_latest?
  · intro h
    rw [MemoryStore.load, h]
    rfl

theorem ForgetsAlone.historyOf_eq_nil (h : ForgetsAlone s changes) {done : List StoreChange}
    (hdone : done ++ [.delete ""] <+: changes) (hthread : thread ≠ "") :
    (Store.memory.after s done).memory.historyOf thread = [] :=
  load_eq_none_iff.1 (Except.ok.inj (h done hdone thread hthread))

theorem ForgetsAlone.of_prefix (h : ForgetsAlone s changes) {done : List StoreChange}
    (hdone : done <+: changes) : ForgetsAlone s done :=
  fun front hfront => h front (hfront.trans hdone)

section Sequence

variable (h : f.Owns s.files) (hmemory : s.memory = .empty)
  (hdone : (Store.folder f).Completes s changes)
  (hread : ∀ c, .save c ∈ changes →
    c.step < UInt64.size ∧ checkpointOf (Json.pretty c.toValue) = .ok c)

include h hmemory hdone hread

/-- Where the thread without a name is forgotten, no thread is read from the folder any more. So the
memory must not hold one. -/
theorem forgetsAlone_of_mirrors
    (hall : ∀ done, done <+: changes → ∀ thread, thread ≠ "" → f.Mirrors s done thread) :
    ForgetsAlone s changes := by
  intro done hpart thread hthread
  have hbefore : done <+: changes := (List.prefix_append _ _).trans hpart
  obtain ⟨hkeeps, -⟩ : f.Agrees (fun _ => False) s done :=
    h.agrees hmemory (fun front next hnext => hdone front next (hnext.trans hbefore))
      (fun c hc => hread c (hbefore.subset hc)) (fun _ _ hfalse => hfalse.elim)
      (fun _ _ _ _ hfalse => hfalse.elim)
  have hok := hdone done (.delete "") hpart
  have hload := (hall _ hpart thread hthread).load
  rw [Store.after_concat, Store.after_concat] at hload
  cases hres : f.delete ((Store.folder f).after s done).files "" with
  | mk result t' =>
    simp only [StoreChange.perform, Store.delete, hres] at hok hload
    subst hok
    obtain ⟨htidy, hbare⟩ := delete_unnamed h.settled hkeeps.tidy hres
    have hholds : f.Holds t' thread [] := holds_nil (hbare.find?_inside thread)
    have hhistory := (hholds.history_iff h.settled htidy).2 fun _ hempty => absurd hempty hthread
    have hnone : f.load t' thread = .ok none := hholds.load h.settled htidy hhistory
    simp only [Store.load, hnone, Except.ok.injEq] at hload
    show Except.ok _ = _
    rw [load_eq_none_iff.2]
    rw [← load_eq_none_iff.1 hload.symm, hkeeps.sound.historyOf_delete, if_neg (Ne.symm hthread)]

/-- The folder agrees with the memory, for all threads but the one without a name. -/
theorem agrees_named (halone : ForgetsAlone s changes) {done : List StoreChange}
    (hpart : done <+: changes) : f.Agrees (fun thread => thread ≠ "") s done :=
  h.agrees hmemory (fun front next hnext => hdone front next (hnext.trans hpart))
    (fun c hc => hread c (hpart.subset hc)) (fun _ _ hunnamed => absurd rfl hunnamed)
    (fun _ hfront _ _ hother => (halone.of_prefix hpart).historyOf_eq_nil hfront hother)

/-- The folder agrees with the memory, for all threads, if the steps of the one without a name can be
read from it. -/
theorem agrees_all (halone : ForgetsAlone s changes)
    (hsteps : ∀ done, done <+: changes → f.Agrees (fun _ => True) s done → f.Mirrors s done "")
    {done : List StoreChange} (hpart : done <+: changes) : f.Agrees (fun _ => True) s done :=
  h.agrees hmemory (fun front next hnext => hdone front next (hnext.trans hpart))
    (fun c hc => hread c (hpart.subset hc))
    (fun front hfront _ hagrees => (hsteps front (hfront.trans hpart) hagrees).history)
    (fun _ hfront _ hother _ => (halone.of_prefix hpart).historyOf_eq_nil hfront hother)

end Sequence

/-- **A folder mirrors the memory exactly as far as the thread without a name allows.** Every other
thread is read from it as from memory if and only if the thread without a name is only forgotten where
no other thread has a checkpoint. And all threads are if and only if, besides, every number that a
standing folder bears is a step of the thread without a name. -/
theorem folder_mirrors_memory_iff (h : f.Owns s.files) (hmemory : s.memory = .empty)
    (hdone : (Store.folder f).Completes s changes)
    (hread : ∀ c, .save c ∈ changes →
      c.step < UInt64.size ∧ checkpointOf (Json.pretty c.toValue) = .ok c) :
    ((∀ done, done <+: changes → ∀ thread, thread ≠ "" → f.Mirrors s done thread) ↔
      ForgetsAlone s changes) ∧
    ((∀ done, done <+: changes → ∀ thread, f.Mirrors s done thread) ↔
      ForgetsAlone s changes ∧ NumbersAgree s changes) := by
  refine ⟨⟨forgetsAlone_of_mirrors h hmemory hdone hread, ?_⟩, ?_, ?_⟩
  · intro halone done hpart thread hthread
    have hagrees := agrees_named h hmemory hdone hread halone hpart
    exact (hagrees.mirrors_iff h.settled hthread).2 fun hempty => absurd hempty hthread
  · intro hall
    have halone := forgetsAlone_of_mirrors h hmemory hdone hread fun done hpart thread _ =>
      hall done hpart thread
    refine ⟨halone, fun done hpart => ?_⟩
    have hagrees := agrees_all h hmemory hdone hread halone
      (fun front hfront _ => hall front hfront "") hpart
    exact (hagrees.mirrors_iff h.settled trivial).1 (hall done hpart "") rfl
  · rintro ⟨halone, hnumbers⟩ done hpart thread
    have hagrees := agrees_all h hmemory hdone hread halone
      (fun front hfront hagrees => (hagrees.mirrors_iff h.settled trivial).2 fun _ =>
        hnumbers front hfront) hpart
    exact (hagrees.mirrors_iff h.settled trivial).2 fun _ => hnumbers done hpart

end FolderStore

/-! ## A thread that is lost -/

/-- A folder with a short path. -/
def bareFolder : FolderStore := ⟨"checkpoints", false⟩

/-- A checkpoint of a thread that has come to its end. -/
def bareCheckpoint : Checkpoint := ⟨"a", 0, ⟨[], 0, [], [], none⟩, none, []⟩

theorem bareFolder_owns : bareFolder.Owns Storage.empty.files where
  settled := FolderStore.settled_of_not_mem (by decide) (by decide)
  sound := FileTree.sound_empty
  root := rfl
  fresh := .inl rfl

theorem bareCheckpoint_reads :
    FolderStore.checkpointOf (Json.pretty bareCheckpoint.toValue) = .ok bareCheckpoint := by
  have hparts : (FolderStore.checkpointOf (Json.pretty bareCheckpoint.toValue)).toOption.any (fun c =>
      c.thread = "a" ∧ c.step = 0 ∧ c.next = none ∧ c.metadata.isEmpty ∧ c.state.values.isEmpty ∧
        c.state.step = 0 ∧ c.state.loopCounters.isEmpty ∧ c.state.errors.isEmpty ∧
        c.state.interrupt.isNone) := by
    decide +kernel
  cases hread : FolderStore.checkpointOf (Json.pretty bareCheckpoint.toValue) with
  | error e =>
    rw [hread] at hparts
    cases hparts
  | ok c =>
    obtain ⟨thread, step, ⟨values, count, counters, errors, interrupt⟩, next, metadata⟩ := c
    simp only [hread, Except.toOption, Option.any_some, decide_eq_true_eq, List.isEmpty_iff,
      Option.isNone_iff_eq_none] at hparts
    obtain ⟨rfl, rfl, rfl, rfl, rfl, rfl, rfl, rfl, rfl⟩ := hparts
    rfl

theorem bareCheckpoint_saved :
    ((StoreChange.save bareCheckpoint).perform (.folder bareFolder) .empty).1 = .ok () := by
  with_unfolding_all rfl

/-- A thread that has been saved is read from the folder as from memory, and so is every other one. -/
theorem saved_thread_is_mirrored :
    bareFolder.Owns Storage.empty.files ∧
      (Store.folder bareFolder).Completes .empty [.save bareCheckpoint] ∧
      ∀ done, done <+: [.save bareCheckpoint] → ∀ thread, bareFolder.Mirrors .empty done thread := by
  have hcompletes : (Store.folder bareFolder).Completes .empty [.save bareCheckpoint] :=
    Store.completes_cons bareCheckpoint_saved (Store.completes_nil _ _)
  have hread : ∀ c, .save c ∈ [StoreChange.save bareCheckpoint] →
      c.step < UInt64.size ∧ FolderStore.checkpointOf (Json.pretty c.toValue) = .ok c := by
    intro c hc
    cases List.mem_singleton.1 hc
    exact ⟨by decide, bareCheckpoint_reads⟩
  refine ⟨bareFolder_owns, hcompletes,
    (FolderStore.folder_mirrors_memory_iff bareFolder_owns rfl hcompletes hread).2.2 ⟨?_, ?_⟩⟩
  · -- The thread without a name is never forgotten.
    intro done hdone
    have hmem := hdone.subset (List.mem_append_right done List.mem_cons_self)
    cases List.mem_singleton.1 hmem
  · -- The one folder that is there bears no number.
    intro done hdone thread step _ hstands hstep
    have hnumber : FolderStore.stepOf? (Text.Percent.encode "a") = none := by
      with_unfolding_all rfl
    rcases List.prefix_cons_iff.1 hdone with rfl | ⟨rest, rfl, hrest⟩
    · cases hstands
    · rw [List.prefix_nil.1 hrest] at hstands
      obtain rfl : "a" = thread := by
        simpa [standsAfter, StoreChange.stands, bareCheckpoint] using hstands
      rw [hnumber] at hstep
      cases hstep

/-- Forgetting the thread without a name forgets another thread: the memory still has its checkpoint,
and the folder has none. -/
theorem forgetting_unnamed_loses_thread :
    bareFolder.Owns Storage.empty.files ∧
      (Store.folder bareFolder).Completes .empty [.save bareCheckpoint, .delete ""] ∧
      FolderStore.checkpointOf (Json.pretty bareCheckpoint.toValue) = .ok bareCheckpoint ∧
      (Store.folder bareFolder).load
          ((Store.folder bareFolder).after .empty [.save bareCheckpoint, .delete ""]) "a" = .ok none ∧
      Store.memory.load
          (Store.memory.after .empty [.save bareCheckpoint, .delete ""]) "a" =
        .ok (some bareCheckpoint) := by
  refine ⟨bareFolder_owns, ?_, bareCheckpoint_reads, ?_, ?_⟩
  · refine Store.completes_cons bareCheckpoint_saved (Store.completes_cons ?_ (Store.completes_nil _ _))
    with_unfolding_all rfl
  · with_unfolding_all rfl
  · with_unfolding_all rfl

end WorkflowGraph
