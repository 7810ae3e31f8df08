import WorkflowGraph.Proofs.Checkpoint.Archive
import WorkflowGraph.Proofs.Checkpoint.Shelves

/-!
# Stores that keep threads apart

A store keeps threads apart when whatever it does on one of them depends on nothing but what it
holds for this thread, and changes nothing else, and when nothing but a load tells what this is
(`Store.KeepsApart`). An archive does so. A folder does so as well, with the exception of the thread
without a name, though it is no archive: a file in it need not be readable, and saving may fail. So
every store keeps the threads apart that have a name, in all storages that it can work with
(`Store.keepsAnew`).
-/

set_option autoImplicit false

namespace WorkflowGraph

variable {H α : Type} {Sound : Storage → Prop} {held : Storage → String → H} {store : Store}

/-! ## The property -/

/-- Whether an operation on a thread depends on nothing but what this thread holds, and changes
nothing else. -/
structure Storage.TouchesOnly (Sound : Storage → Prop) (held : Storage → String → H)
    (thread : String) (operation : Storage → α × Storage) : Prop where
  sound : ∀ s, Sound s → Sound (operation s).2
  elsewhere : ∀ s, Sound s → ∀ other, other ≠ thread → held (operation s).2 other = held s other
  answer : ∀ s t, Sound s → Sound t → held s thread = held t thread →
    (operation s).1 = (operation t).1
  here : ∀ s t, Sound s → Sound t → held s thread = held t thread →
    held (operation s).2 thread = held (operation t).2 thread

/-- Whether a store keeps some threads apart from all others, and tells what it holds for them only
where it is asked to load them: whether it can save a checkpoint does not depend on this, and it
forgets a thread and prunes it without fail. -/
structure Store.KeepsApart (store : Store) (T : String → Prop) (Sound : Storage → Prop)
    (held : Storage → String → H) : Prop where
  load : ∀ thread, T thread → Storage.TouchesOnly Sound held thread
    fun s => (store.load s thread, s)
  save : ∀ c : Checkpoint, T c.thread → Storage.TouchesOnly Sound held c.thread
    fun s => store.save s c
  delete : ∀ thread, T thread → Storage.TouchesOnly Sound held thread
    fun s => store.delete s thread
  prune : ∀ thread keep, T thread → 1 ≤ keep → Storage.TouchesOnly Sound held thread
    fun s => store.prune s thread keep
  saves : ∀ c : Checkpoint, T c.thread → ∀ s t, Sound s → Sound t →
    (store.save s c).1 = (store.save t c).1
  forgets : ∀ thread, T thread → ∀ s, Sound s → (store.delete s thread).1 = .ok () ∧
    store.load (store.delete s thread).2 thread = .ok none
  prunes : ∀ thread keep, T thread → 1 ≤ keep → ∀ s, Sound s →
    ∃ gone, (store.prune s thread keep).1 = .ok gone

/-- Whether a store that keeps some threads apart holds the same for every one of them that it has
forgotten, whatever it has held before. -/
structure Store.KeepsAnew (store : Store) (T : String → Prop) (Sound : Storage → Prop)
    (held : Storage → String → H) : Prop extends store.KeepsApart T Sound held where
  anew : ∀ thread, T thread → ∀ s t, Sound s → Sound t →
    held (store.delete s thread).2 thread = held (store.delete t thread).2 thread

/-- An operation whose answer is read off what the thread holds, and which leaves the thread as can
be told from this. -/
theorem Storage.TouchesOnly.of_turns {thread : String} {operation : Storage → α × Storage}
    (answer : H → α) (kept : H → H)
    (h : ∀ s, Sound s → (operation s).1 = answer (held s thread) ∧
      Store.Turns Sound held s thread (kept (held s thread)) (operation s).2) :
    TouchesOnly Sound held thread operation where
  sound s hs := (h s hs).2.sound
  elsewhere s hs := (h s hs).2.elsewhere
  answer s t hs ht hst := by rw [(h s hs).1, (h t ht).1, hst]
  here s t hs ht hst := by rw [(h s hs).2.here, (h t ht).2.here, hst]

/-- An operation that leaves everything as it is. -/
theorem Storage.TouchesOnly.of_answer {thread : String} {answer : Storage → α}
    (h : ∀ s t, Sound s → Sound t → held s thread = held t thread → answer s = answer t) :
    TouchesOnly Sound held thread fun s => (answer s, s) :=
  ⟨fun _ hs => hs, fun _ _ _ _ => rfl, h, fun _ _ _ _ hst => hst⟩

/-! ## Archives -/

/-- **An archive keeps all threads apart.** -/
theorem Store.Archives.keepsApart {held : Storage → String → History}
    (h : store.Archives Sound held) : store.KeepsApart (fun _ => True) Sound held where
  load thread _ := .of_answer fun s t hs ht hst => by
    rw [h.load s thread hs, h.load t thread ht, hst]
  save c _ := .of_turns (fun _ => .ok ()) (fun held => held.put c) fun s hs => h.save s c hs
  delete thread _ := .of_turns (fun _ => .ok ()) (fun _ => []) fun s hs => h.delete s thread hs
  prune thread keep _ hkeep := .of_turns (fun held => .ok (held.length - keep))
    (fun held => held.retain keep) fun s hs => h.prune s thread keep hs hkeep
  saves c _ s t hs ht := by rw [(h.save s c hs).1, (h.save t c ht).1]
  forgets thread _ s hs := by
    obtain ⟨hdone, hturns⟩ := h.delete s thread hs
    refine ⟨hdone, ?_⟩
    rw [h.load _ thread hturns.sound, hturns.here]
    rfl
  prunes thread keep _ hkeep s hs := ⟨_, (h.prune s thread keep hs hkeep).1⟩

theorem Store.Archives.keepsAnew {held : Storage → String → History}
    (h : store.Archives Sound held) : store.KeepsAnew (fun _ => True) Sound held where
  toKeepsApart := h.keepsApart
  anew thread _ s t hs ht :=
    (h.delete s thread hs).2.here.trans (h.delete t thread ht).2.here.symm

theorem Store.KeepsApart.mono {T U : String → Prop} (h : store.KeepsApart T Sound held)
    (hthreads : ∀ thread, U thread → T thread) : store.KeepsApart U Sound held where
  load thread hu := h.load thread (hthreads thread hu)
  save c hu := h.save c (hthreads _ hu)
  delete thread hu := h.delete thread (hthreads thread hu)
  prune thread keep hu := h.prune thread keep (hthreads thread hu)
  saves c hu := h.saves c (hthreads _ hu)
  forgets thread hu := h.forgets thread (hthreads thread hu)
  prunes thread keep hu := h.prunes thread keep (hthreads thread hu)

theorem Store.KeepsAnew.mono {T U : String → Prop} (h : store.KeepsAnew T Sound held)
    (hthreads : ∀ thread, U thread → T thread) : store.KeepsAnew U Sound held where
  toKeepsApart := h.toKeepsApart.mono hthreads
  anew thread hu := h.anew thread (hthreads thread hu)

/-! ## Every store -/

/-- Whether a store can work with a storage. -/
def Store.CanUse (store : Store) (s : Storage) : Prop :=
  match store with
  | .memory => s.memory.Sound
  | .folder f => f.Settled ∧ f.Usable s.files

namespace FolderStore

variable {f : FolderStore}

/-- What a shift of the files does to the storage. -/
theorem Shifts.turns {s : Storage} {thread : String} {files : FileTree}
    {change : (String → Option FileTree) → String → Option FileTree} (hf : f.Settled)
    (h : f.Shifts s.files thread change files) :
    Store.Turns (Store.folder f).CanUse (fun s => f.shelf s.files) s thread
      (change (f.shelf s.files thread)) { s with files } :=
  ⟨⟨hf, h.usable⟩, h.here, h.elsewhere⟩

/-- **A folder keeps the threads apart that have a name.** -/
theorem keepsApart (f : FolderStore) :
    (Store.folder f).KeepsApart (fun thread => thread ≠ "") (Store.folder f).CanUse
      fun s => f.shelf s.files where
  load thread hthread := .of_answer fun s t ⟨hf, hs⟩ ⟨_, ht⟩ hst =>
    load_congr hf hs ht hthread hst
  save c hthread := .of_turns (fun _ => (f.saving c).1) (f.saving c).2 fun s ⟨hf, hs⟩ => by
    obtain ⟨files, hsave, hshifts⟩ := hs.save hf hthread
    simp only [Store.save, hsave]
    exact ⟨trivial, hshifts.turns hf⟩
  delete thread hthread := .of_turns (fun _ => .ok ()) (fun _ _ => none) fun s ⟨hf, hs⟩ => by
    obtain ⟨files, hdelete, hshifts⟩ := hs.delete hf hthread
    simp only [Store.delete, hdelete]
    exact ⟨trivial, hshifts.turns hf⟩
  prune thread keep hthread _ := by
    have hprune (s : Storage) (hs : (Store.folder f).CanUse s) :
        ∃ steps, f.history s.files thread = .ok steps ∧
          ((Store.folder f).prune s thread keep).1 =
            .ok (steps.take (steps.length - keep)).length ∧
          Store.Turns (Store.folder f).CanUse (fun s => f.shelf s.files) s thread
            ((steps.take (steps.length - keep)).foldl (f.without thread) (f.shelf s.files thread))
            ((Store.folder f).prune s thread keep).2 := by
      obtain ⟨steps, files, hsteps, hgone, hshifts⟩ := hs.2.prune hs.1 hthread keep
      refine ⟨steps, hsteps, ?_⟩
      simp only [Store.prune, hgone]
      exact ⟨trivial, hshifts.turns hs.1⟩
    -- Where the shelf is the same, so are its steps, and as many of them go.
    have hsame {s t : Storage} (hs : (Store.folder f).CanUse s) (ht : (Store.folder f).CanUse t)
        (hst : f.shelf s.files thread = f.shelf t.files thread) {old new : List Nat}
        (hold : f.history s.files thread = .ok old) (hnew : f.history t.files thread = .ok new) :
        old = new :=
      Except.ok.inj (hold.symm.trans ((history_congr hs.1 hs.2 ht.2 hthread hst).trans hnew))
    refine ⟨fun s hs => ?_, fun s hs => ?_, fun s t hs ht hst => ?_, fun s t hs ht hst => ?_⟩
    · obtain ⟨_, _, _, hturns⟩ := hprune s hs
      exact hturns.sound
    · obtain ⟨_, _, _, hturns⟩ := hprune s hs
      exact hturns.elsewhere
    · obtain ⟨old, hold, hgone, _⟩ := hprune s hs
      obtain ⟨new, hnew, hgone', _⟩ := hprune t ht
      rw [hgone, hgone', hsame hs ht hst hold hnew]
    · obtain ⟨old, hold, _, hturns⟩ := hprune s hs
      obtain ⟨new, hnew, _, hturns'⟩ := hprune t ht
      rw [hturns.here, hturns'.here, hsame hs ht hst hold hnew, hst]
  saves c hthread s t hs ht := by
    obtain ⟨_, hsave, _⟩ := hs.2.save hs.1 hthread
    obtain ⟨_, hsave', _⟩ := ht.2.save ht.1 hthread
    simp only [Store.save, hsave, hsave']
  forgets thread hthread s hs := by
    obtain ⟨files, hdelete, hshifts⟩ := hs.2.delete hs.1 hthread
    simp only [Store.delete, hdelete]
    exact ⟨trivial, hshifts.usable.load_eq_none hs.1 hthread fun name => congrFun hshifts.here name⟩
  prunes thread keep hthread _ s hs := by
    obtain ⟨_, _, _, hgone, _⟩ := hs.2.prune hs.1 hthread keep
    simp only [Store.prune, hgone]
    exact ⟨_, rfl⟩

theorem keepsAnew (f : FolderStore) :
    (Store.folder f).KeepsAnew (fun thread => thread ≠ "") (Store.folder f).CanUse
      fun s => f.shelf s.files where
  toKeepsApart := f.keepsApart
  anew thread hthread s t hs ht := by
    obtain ⟨_, hdelete, hshifts⟩ := hs.2.delete hs.1 hthread
    obtain ⟨_, hdelete', hshifts'⟩ := ht.2.delete ht.1 hthread
    simp only [Store.delete, hdelete, hdelete']
    exact hshifts.here.trans hshifts'.here.symm

end FolderStore

/-! ## What stores hold -/

/-- What a store holds does not depend on how it is written down. -/
theorem Storage.TouchesOnly.map {K : Type} {φ : H → K} (hφ : Function.Injective φ) {thread : String}
    {operation : Storage → α × Storage} (h : TouchesOnly Sound held thread operation) :
    TouchesOnly Sound (fun s u => φ (held s u)) thread operation where
  sound := h.sound
  elsewhere s hs other hother := congrArg φ (h.elsewhere s hs other hother)
  answer s t hs ht hst := h.answer s t hs ht (hφ hst)
  here s t hs ht hst := congrArg φ (h.here s t hs ht (hφ hst))

theorem Store.KeepsAnew.map {K : Type} {φ : H → K} (hφ : Function.Injective φ) {T : String → Prop}
    (h : store.KeepsAnew T Sound held) : store.KeepsAnew T Sound fun s u => φ (held s u) where
  load thread ht := (h.load thread ht).map hφ
  save c hc := (h.save c hc).map hφ
  delete thread ht := (h.delete thread ht).map hφ
  prune thread keep ht hkeep := (h.prune thread keep ht hkeep).map hφ
  saves := h.saves
  forgets := h.forgets
  prunes := h.prunes
  anew thread ht s t hs hs' := congrArg φ (h.anew thread ht s t hs hs')

/-- What a store holds for a thread: its history in memory, or the files in its folder. -/
def Store.contents (store : Store) (s : Storage) (thread : String) :
    History ⊕ (String → Option FileTree) :=
  match store with
  | .memory => .inl (s.inMemory thread)
  | .folder f => .inr (f.shelf s.files thread)

/-- **Every store keeps the threads apart that have a name.** -/
theorem Store.keepsAnew (store : Store) :
    store.KeepsAnew (fun thread => thread ≠ "") store.CanUse store.contents := by
  cases store with
  | memory =>
    exact (Store.memory_archives.keepsAnew.mono fun _ _ => trivial).map Sum.inl_injective
  | folder f => exact f.keepsAnew.map Sum.inr_injective

/-- Whether the store of a graph, if it has one, can work with a storage. -/
def Storage.ReadyFor (store : Option Store) (s : Storage) : Prop :=
  ∀ kept, store = some kept → kept.CanUse s

theorem Storage.readyFor_memory {s : Storage} (hs : s.memory.Sound) :
    s.ReadyFor (some .memory) := by
  rintro _ ⟨⟩
  exact hs

/-- Every store can work with a storage in which there is nothing, if it has a folder for itself
alone. -/
theorem Storage.readyFor_empty {store : Option Store}
    (h : ∀ f, store = some (.folder f) → f.Settled) : Storage.empty.ReadyFor store := by
  rintro kept rfl
  cases kept with
  | memory => exact MemoryStore.sound_empty
  | folder f => exact ⟨h f rfl, f.usable_empty⟩

/-- What the store of a graph, if it has one, holds for a thread. -/
def Storage.contents (store : Option Store) (s : Storage) (thread : String) :
    Option (History ⊕ (String → Option FileTree)) :=
  store.map fun kept => kept.contents s thread

theorem Storage.readyFor_some (kept : Store) : ReadyFor (some kept) = kept.CanUse := by
  funext s
  exact propext ⟨fun hs => hs kept rfl, by rintro hs _ ⟨⟩; exact hs⟩

theorem Storage.keepsAnew {store : Option Store} : ∀ kept, store = some kept →
    kept.KeepsAnew (fun thread => thread ≠ "") (ReadyFor store) (contents store) := by
  rintro kept rfl
  rw [readyFor_some]
  exact kept.keepsAnew.map (Option.some_injective _)

theorem Storage.exists_keepsApart (store : Option Store) :
    ∃ (H : Type) (held : Storage → String → H), ∀ kept, store = some kept →
      kept.KeepsApart (fun thread => thread ≠ "") (ReadyFor store) held :=
  ⟨_, contents store, fun kept hkept => (keepsAnew kept hkept).toKeepsApart⟩

end WorkflowGraph
