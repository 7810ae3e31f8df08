import WorkflowGraph.Proofs.Checkpoint.Memory

/-!
# Stores as archives

A store is an archive when it is nothing but a history for every thread: it answers from the history
of the thread that it is asked for, and changes no other one (`Store.Archives`). The store in memory
is an archive (`Store.memory_archives`). Of an archive more is known than that it works: what is
saved with a step that no held one reaches stands behind all others, and pruning leaves exactly the
last ones.
-/

set_option autoImplicit false

namespace WorkflowGraph

namespace History

/-- The last entries of a history, as many as are to be kept. -/
def retain (h : History) (keep : Nat) : History := List.drop (h.length - keep) h

/-- A checkpoint that is ahead of all others is kept behind them. -/
theorem put_of_lt {h : History} {c : Checkpoint} (hahead : ∀ p ∈ h, p.1 < c.step) :
    h.put c = h ++ [(c.step, c)] := by
  induction h with
  | nil => rfl
  | cons p rest ih =>
    obtain ⟨step, old⟩ := p
    obtain ⟨hstep, hrest⟩ := List.forall_mem_cons.1 hahead
    dsimp only at hstep
    unfold put
    rw [if_neg (by omega), if_neg (by omega), ih hrest]
    rfl

theorem latest?_append (h : History) (c : Checkpoint) :
    latest? (h ++ [(c.step, c)]) = some c := by
  unfold latest?
  rw [List.getLast?_append]
  rfl

/-- Where something is kept, the latest checkpoint is. -/
theorem latest?_retain (h : History) {keep : Nat} (hkeep : 1 ≤ keep) :
    (h.retain keep).latest? = h.latest? := by
  unfold latest? retain
  rw [List.getLast?_drop]
  split
  · next hle =>
    have hnil : h = [] := by
      apply List.eq_nil_of_length_eq_zero
      omega
    rw [hnil]
    rfl
  · rfl

theorem steps_retain (h : History) (keep : Nat) :
    (h.retain keep).steps = h.steps.drop (h.steps.length - keep) := by
  unfold retain steps
  rw [List.map_drop, List.length_map]

/-- Pruning again after something has been kept is as pruning once. -/
theorem retain_append_retain (h : History) (p : Nat × Checkpoint) {keep : Nat} (hkeep : 1 ≤ keep) :
    (h.retain keep ++ [p]).retain keep = (h ++ [p]).retain keep := by
  unfold retain
  rcases Nat.le_total h.length keep with hle | hle
  · rw [Nat.sub_eq_zero_of_le hle, List.drop_zero]
  · rw [List.length_append, List.length_append, List.length_drop, List.length_singleton,
      List.drop_append_of_le_length (by rw [List.length_drop]; omega), List.drop_drop,
      List.drop_append_of_le_length (by omega)]
    congr 2
    omega

end History

/-! ## The property -/

/-- What an operation on one thread leaves in a sound storage: there it holds what is given, and on
all others what has been held. -/
structure Store.Turns {H : Type} (Sound : Storage → Prop) (held : Storage → String → H)
    (s : Storage) (thread : String) (h : H) (after : Storage) : Prop where
  sound : Sound after
  here : held after thread = h
  elsewhere : ∀ other, other ≠ thread → held after other = held s other

/-- Whether a store holds, in all storages that are sound, a sound history for every thread, and
nothing else. -/
structure Store.Archives (store : Store) (Sound : Storage → Prop)
    (held : Storage → String → History) : Prop where
  rising : ∀ s thread, Sound s → (held s thread).Sound
  load : ∀ s thread, Sound s → store.load s thread = .ok (held s thread).latest?
  loadStep : ∀ s thread step, Sound s →
    store.loadStep s thread step = .ok ((held s thread).get? step)
  history : ∀ s thread, Sound s → store.history s thread = .ok (held s thread).steps
  save : ∀ s c, Sound s → (store.save s c).1 = .ok () ∧
    Store.Turns Sound held s c.thread ((held s c.thread).put c) (store.save s c).2
  delete : ∀ s thread, Sound s → (store.delete s thread).1 = .ok () ∧
    Store.Turns Sound held s thread [] (store.delete s thread).2
  prune : ∀ s thread keep, Sound s → 1 ≤ keep →
    (store.prune s thread keep).1 = .ok ((held s thread).length - keep) ∧
      Store.Turns Sound held s thread ((held s thread).retain keep)
        (store.prune s thread keep).2

namespace Store.Archives

variable {store : Store} {Sound : Storage → Prop} {held : Storage → String → History}

theorem latest?_eq (h : store.Archives Sound held) {s : Storage} (hs : Sound s) (thread : String) :
    store.latest? s thread = (held s thread).latest? := by
  unfold Store.latest?
  rw [h.load s thread hs]

theorem leaves (h : store.Archives Sound held) {s after : Storage} (hs : Sound s) {thread : String}
    {kept : History} (hturns : Turns Sound held s thread kept after) :
    store.Leaves Sound s thread kept.latest? after := by
  refine ⟨hturns.sound, ?_, fun other hother => ?_⟩
  · rw [h.latest?_eq hturns.sound, hturns.here]
  · rw [h.latest?_eq hturns.sound, h.latest?_eq hs, hturns.elsewhere other hother]

/-- **An archive works.** -/
theorem works (h : store.Archives Sound held) : store.Works Sound where
  load s thread hs := by
    rw [h.latest?_eq hs]
    exact h.load s thread hs
  saveElsewhere s c hs := ⟨_, h.leaves hs (h.save s c hs).2⟩
  save s c hs hle := by
    obtain ⟨hdone, hturns⟩ := h.save s c hs
    refine ⟨hdone, ?_⟩
    rw [← (h.rising s c.thread hs).latest?_put fun old hold => ?_]
    · exact h.leaves hs hturns
    · apply hle
      rw [h.latest?_eq hs]
      exact hold
  delete s thread hs := by
    obtain ⟨hdone, hturns⟩ := h.delete s thread hs
    exact ⟨hdone, h.leaves hs hturns⟩
  prune s thread keep hs hkeep := by
    obtain ⟨hdone, hturns⟩ := h.prune s thread keep hs hkeep
    refine ⟨⟨_, hdone⟩, ?_⟩
    rw [h.latest?_eq hs, ← (held s thread).latest?_retain hkeep]
    exact h.leaves hs hturns

end Store.Archives

/-! ## The store in memory -/

namespace MemoryStore

/-- Forgetting the first steps of a history leaves the rest. By induction on these steps. -/
theorem Sound.foldl_deleteStep_front {thread : String} (front back : History) {m : MemoryStore}
    (hm : m.Sound) (hhistory : m.historyOf thread = front ++ back) :
    (front.steps.foldl (fun m step => m.deleteStep thread step) m).Sound ∧
      ∀ other, (front.steps.foldl (fun m step => m.deleteStep thread step) m).historyOf other =
        if thread = other then back else m.historyOf other := by
  induction front generalizing m with
  | nil =>
    refine ⟨hm, fun other => ?_⟩
    split
    · next hsame => exact hsame ▸ hhistory
    · rfl
  | cons p rest ih =>
    have hrising := (hm.history thread).rising
    rw [hhistory] at hrising
    -- All that stands behind the first one has another step.
    have hrest : (m.deleteStep thread p.1).historyOf thread = rest ++ back := by
      rw [hm.historyOf_deleteStep, if_pos rfl, hhistory]
      unfold History.drop
      rw [List.cons_append, List.filter_cons_of_neg (by simp), List.filter_eq_self]
      intro q hq
      have := (List.pairwise_cons.1 hrising).1 q hq
      simp only [bne_iff_ne, ne_eq]
      omega
    obtain ⟨hsound, hafter⟩ := ih (hm.deleteStep thread p.1) hrest
    refine ⟨hsound, fun other => (hafter other).trans ?_⟩
    split
    · rfl
    · next hother => rw [hm.historyOf_deleteStep, if_neg hother]

theorem Sound.prune_retains {m : MemoryStore} (hm : m.Sound) (thread : String) (keep : Nat) :
    (m.prune thread keep).1 = (m.historyOf thread).length - keep ∧ (m.prune thread keep).2.Sound ∧
      ∀ other, (m.prune thread keep).2.historyOf other =
        if thread = other then (m.historyOf thread).retain keep else m.historyOf other := by
  have hold : (m.history thread).take ((m.history thread).length - keep) =
      History.steps ((m.historyOf thread).take ((m.historyOf thread).length - keep)) := by
    unfold MemoryStore.history History.steps
    rw [List.map_take, List.length_map]
  unfold MemoryStore.prune
  dsimp only
  rw [hold]
  refine ⟨?_, hm.foldl_deleteStep_front _ ((m.historyOf thread).retain keep) ?_⟩
  · unfold History.steps
    rw [List.length_map, List.length_take]
    omega
  · exact (List.take_append_drop _ _).symm

end MemoryStore

/-- The history of a thread that is kept in memory. -/
def Storage.inMemory (s : Storage) (thread : String) : History := s.memory.historyOf thread

/-- **The store in memory is an archive.** -/
theorem Store.memory_archives : Store.memory.Archives Storage.SoundMemory Storage.inMemory where
  rising _ thread hs := hs.history thread
  load _ _ _ := rfl
  loadStep _ _ _ _ := rfl
  history _ _ _ := rfl
  save s c hs := by
    refine ⟨rfl, MemoryStore.Sound.save hs c, ?_, fun other hother => ?_⟩
    · exact (MemoryStore.historyOf_save s.memory c c.thread).trans (if_pos rfl)
    · exact (MemoryStore.historyOf_save s.memory c other).trans (if_neg hother.symm)
  delete s thread hs := by
    refine ⟨rfl, MemoryStore.Sound.delete hs thread, ?_, fun other hother => ?_⟩
    · exact (MemoryStore.Sound.historyOf_delete hs thread thread).trans (if_pos rfl)
    · exact (MemoryStore.Sound.historyOf_delete hs thread other).trans (if_neg hother.symm)
  prune s thread keep hs _ := by
    obtain ⟨hgone, hsound, hafter⟩ := MemoryStore.Sound.prune_retains hs thread keep
    refine ⟨congrArg Except.ok hgone, hsound, ?_, fun other hother => ?_⟩
    · exact (hafter thread).trans (if_pos rfl)
    · exact (hafter other).trans (if_neg hother.symm)

end WorkflowGraph
