import WorkflowGraph.Checkpoint.Store
import WorkflowGraph.Proofs.Dict

/-!
# Working stores

A store works when it loads from a thread what has been saved there last, provided that the steps
do not fall, and when what is done with one thread leaves the others alone (`Store.Works`). The
store in memory works (`Store.memory_works`): its histories rise, so what is saved last stands
last, and pruning takes from the front.
-/

set_option autoImplicit false

namespace WorkflowGraph

/-! ## The property -/

/-- The latest checkpoint of a thread, as far as it can be loaded. -/
def Store.latest? (store : Store) (s : Storage) (thread : String) : Option Checkpoint :=
  match store.load s thread with
  | .ok found => found
  | .error _ => none

/-- What an operation of a store leaves in a sound storage: the latest checkpoint that is given
on one thread, and what has been there on all others. -/
structure Store.Leaves (store : Store) (Sound : Storage → Prop) (s : Storage) (thread : String)
    (latest : Option Checkpoint) (after : Storage) : Prop where
  sound : Sound after
  here : store.latest? after thread = latest
  elsewhere : ∀ other, other ≠ thread → store.latest? after other = store.latest? s other

/-- Whether a store keeps what it is told to, in all storages that are sound. A checkpoint has
to be saved in any case without harm to other threads, and counts as the latest one if its step
does not fall behind. -/
structure Store.Works (store : Store) (Sound : Storage → Prop) : Prop where
  load : ∀ s thread, Sound s → store.load s thread = .ok (store.latest? s thread)
  saveElsewhere : ∀ s c, Sound s → ∃ latest,
    store.Leaves Sound s c.thread latest (store.save s c).2
  save : ∀ s c, Sound s → (∀ old, store.latest? s c.thread = some old → old.step ≤ c.step) →
    (store.save s c).1 = .ok () ∧ store.Leaves Sound s c.thread (some c) (store.save s c).2
  delete : ∀ s thread, Sound s → (store.delete s thread).1 = .ok () ∧
    store.Leaves Sound s thread none (store.delete s thread).2
  prune : ∀ s thread keep, Sound s → 1 ≤ keep →
    (∃ gone, (store.prune s thread keep).1 = .ok gone) ∧
      store.Leaves Sound s thread (store.latest? s thread) (store.prune s thread keep).2

/-! ## Histories -/

namespace History

/-- Whether the steps of a history rise, and every checkpoint stands under its own step. -/
structure Sound (h : History) : Prop where
  rising : h.Pairwise fun p q => p.1 < q.1
  keyed : ∀ p ∈ h, p.1 = p.2.step

theorem eq_or_mem_of_mem_put {h : History} {c : Checkpoint} {p : Nat × Checkpoint}
    (hp : p ∈ h.put c) : p = (c.step, c) ∨ p ∈ h := by
  induction h with
  | nil => exact .inl (List.mem_singleton.1 hp)
  | cons q rest ih =>
    obtain ⟨step, old⟩ := q
    unfold put at hp
    split at hp
    · rcases List.mem_cons.1 hp with hp | hp
      · exact .inl hp
      · exact .inr hp
    · split at hp
      · rcases List.mem_cons.1 hp with hp | hp
        · exact .inl hp
        · exact .inr (List.mem_cons_of_mem _ hp)
      · rcases List.mem_cons.1 hp with hp | hp
        · exact .inr (hp ▸ List.mem_cons_self)
        · rcases ih hp with hp | hp
          · exact .inl hp
          · exact .inr (List.mem_cons_of_mem _ hp)

/-- Keeping a checkpoint keeps the steps rising. -/
theorem pairwise_put {h : History} (hrising : h.Pairwise fun p q => p.1 < q.1) (c : Checkpoint) :
    (h.put c).Pairwise fun p q => p.1 < q.1 := by
  induction h with
  | nil => exact List.pairwise_singleton _ _
  | cons q rest ih =>
    obtain ⟨step, old⟩ := q
    obtain ⟨hfirst, hrest⟩ := List.pairwise_cons.1 hrising
    unfold put
    split
    · next hlt =>
      refine List.pairwise_cons.2 ⟨fun p hp => ?_, hrising⟩
      rcases List.mem_cons.1 hp with rfl | hp
      · exact hlt
      · exact Nat.lt_trans hlt (hfirst p hp)
    · split
      · next heq =>
        subst heq
        exact List.pairwise_cons.2 ⟨hfirst, hrest⟩
      · next hlt hne =>
        refine List.pairwise_cons.2 ⟨fun p hp => ?_, ih hrest⟩
        rcases eq_or_mem_of_mem_put hp with rfl | hp
        · show step < c.step
          omega
        · exact hfirst p hp

theorem Sound.put {h : History} (hs : h.Sound) (c : Checkpoint) : (h.put c).Sound := by
  refine ⟨pairwise_put hs.rising c, fun p hp => ?_⟩
  rcases eq_or_mem_of_mem_put hp with rfl | hp
  · rfl
  · exact hs.keyed p hp

theorem Sound.drop {h : History} (hs : h.Sound) (step : Nat) : (h.drop step).Sound :=
  ⟨hs.rising.filter _, fun p hp => hs.keyed p (List.mem_filter.1 hp).1⟩

theorem Sound.of_latest? {h : History} (hs : h.Sound) {c : Checkpoint}
    (hlatest : h.latest? = some c) :
    ∃ front, h = front ++ [(c.step, c)] ∧ ∀ p ∈ front, p.1 < c.step := by
  unfold latest? at hlatest
  obtain ⟨⟨step, d⟩, hlast, rfl⟩ := Option.map_eq_some_iff.1 hlatest
  obtain ⟨front, rfl⟩ := List.getLast?_eq_some_iff.1 hlast
  have hstep : step = d.step := hs.keyed (step, d) (by simp)
  subst hstep
  refine ⟨front, rfl, fun p hp => ?_⟩
  exact (List.pairwise_append.1 hs.rising).2.2 p hp _ (List.mem_singleton.2 rfl)

theorem eq_nil_of_latest? {h : History} (hlatest : h.latest? = none) : h = [] := by
  unfold latest? at hlatest
  rw [Option.map_eq_none_iff] at hlatest
  exact List.getLast?_eq_none_iff.1 hlatest

/-- A checkpoint whose step no other one is ahead of stands last when it has been kept. -/
theorem getLast?_put {h : History} (hrising : h.Pairwise fun p q => p.1 < q.1) {c : Checkpoint}
    (hall : ∀ p ∈ h, p.1 ≤ c.step) : (h.put c).getLast? = some (c.step, c) := by
  induction h with
  | nil => rfl
  | cons q rest ih =>
    obtain ⟨step, old⟩ := q
    obtain ⟨hfirst, hrest⟩ := List.pairwise_cons.1 hrising
    obtain ⟨hstep, hbelow⟩ := List.forall_mem_cons.1 hall
    dsimp only at hstep
    unfold put
    rw [if_neg (by omega)]
    split
    · next heq =>
      -- Nothing rises further.
      cases rest with
      | nil => rfl
      | cons p rest =>
        have hgreater := hfirst p List.mem_cons_self
        have hless := hbelow p List.mem_cons_self
        dsimp only at hgreater
        omega
    · rw [List.getLast?_cons, ih hrest hbelow]
      rfl

theorem Sound.latest?_put {h : History} (hs : h.Sound) {c : Checkpoint}
    (hle : ∀ old, h.latest? = some old → old.step ≤ c.step) : (h.put c).latest? = some c := by
  have hall : ∀ p ∈ h, p.1 ≤ c.step := by
    intro p hp
    cases hlatest : h.latest? with
    | none =>
      rw [eq_nil_of_latest? hlatest] at hp
      cases hp
    | some old =>
      obtain ⟨front, rfl, hfront⟩ := hs.of_latest? hlatest
      have := hle old hlatest
      rcases List.mem_append.1 hp with hp | hp
      · have := hfront p hp
        omega
      · obtain rfl := List.mem_singleton.1 hp
        exact this
  unfold latest?
  rw [getLast?_put hs.rising hall]
  rfl

/-- Forgetting other steps than that of the latest checkpoint leaves this the latest one. -/
theorem Sound.latest?_drop {h : History} (hs : h.Sound) {c : Checkpoint} {step : Nat}
    (hlatest : h.latest? = some c) (hne : c.step ≠ step) : (h.drop step).latest? = some c := by
  obtain ⟨front, rfl, _⟩ := hs.of_latest? hlatest
  unfold History.drop latest?
  rw [List.filter_append]
  simp [hne]

end History

/-! ## The store in memory -/

namespace MemoryStore

/-- Whether the threads rise, each with a sound history. -/
structure Sound (m : MemoryStore) : Prop where
  rising : m.threads.Rising
  history : ∀ thread, (m.historyOf thread).Sound

theorem historyOf_save (m : MemoryStore) (c : Checkpoint) (thread : String) :
    (m.save c).historyOf thread =
      if c.thread = thread then (m.historyOf thread).put c else m.historyOf thread := by
  unfold historyOf save
  rw [Dict.get?_put]
  split
  · next h =>
    subst h
    rfl
  · rfl

theorem Sound.historyOf_delete {m : MemoryStore} (hm : m.Sound) (thread other : String) :
    (m.delete thread).historyOf other = if thread = other then [] else m.historyOf other := by
  unfold historyOf delete
  rw [hm.rising.get?_drop]
  split
  · rfl
  · rfl

/-- In a rising store, forgetting a step changes the history of its thread only. -/
theorem Sound.historyOf_deleteStep {m : MemoryStore} (hm : m.Sound) (thread : String) (step : Nat)
    (other : String) :
    (m.deleteStep thread step).historyOf other =
      if thread = other then (m.historyOf thread).drop step else m.historyOf other := by
  unfold deleteStep
  cases hget : m.threads.get? thread with
  | none =>
    dsimp only
    split
    · next h =>
      subst h
      unfold historyOf
      rw [hget]
      rfl
    · rfl
  | some h =>
    have hhistory : m.historyOf thread = h := by
      unfold historyOf
      rw [hget]
      rfl
    rw [hhistory]
    dsimp only
    split
    · next hempty =>
      rw [List.isEmpty_iff.1 hempty]
      exact hm.historyOf_delete thread other
    · unfold historyOf
      rw [Dict.get?_put]
      split
      · rfl
      · rfl

theorem Sound.save {m : MemoryStore} (hm : m.Sound) (c : Checkpoint) : (m.save c).Sound := by
  refine ⟨hm.rising.put _ _, fun thread => ?_⟩
  rw [historyOf_save]
  split
  · exact (hm.history thread).put c
  · exact hm.history thread

theorem Sound.delete {m : MemoryStore} (hm : m.Sound) (thread : String) :
    (m.delete thread).Sound := by
  refine ⟨hm.rising.drop _, fun other => ?_⟩
  rw [hm.historyOf_delete]
  split
  · exact ⟨List.Pairwise.nil, by simp⟩
  · exact hm.history other

theorem Sound.deleteStep {m : MemoryStore} (hm : m.Sound) (thread : String) (step : Nat) :
    (m.deleteStep thread step).Sound := by
  refine ⟨?_, fun other => ?_⟩
  · unfold MemoryStore.deleteStep
    split
    · exact hm.rising
    · dsimp only
      split
      · exact hm.rising.drop _
      · exact hm.rising.put _ _
  · rw [hm.historyOf_deleteStep]
    split
    · exact (hm.history thread).drop step
    · exact hm.history other

/-- Forgetting steps of a thread other than its latest one changes no latest checkpoint. By
induction on the steps. -/
theorem Sound.foldl_deleteStep {thread : String} (steps : List Nat) {m : MemoryStore}
    (hm : m.Sound) (h : ∀ c, m.load thread = some c → ∀ step ∈ steps, c.step ≠ step) :
    (steps.foldl (fun m step => m.deleteStep thread step) m).Sound ∧
      ∀ other, (steps.foldl (fun m step => m.deleteStep thread step) m).load other =
        m.load other := by
  induction steps generalizing m with
  | nil => exact ⟨hm, fun _ => rfl⟩
  | cons step rest ih =>
    have hload (other : String) : (m.deleteStep thread step).load other = m.load other := by
      unfold load
      rw [hm.historyOf_deleteStep]
      split
      · next hsame =>
        subst hsame
        cases hlatest : (m.historyOf thread).latest? with
        | none =>
          rw [History.eq_nil_of_latest? hlatest]
          rfl
        | some c =>
          exact (hm.history thread).latest?_drop hlatest (h c hlatest step List.mem_cons_self)
      · rfl
    have hrest : ∀ c, (m.deleteStep thread step).load thread = some c →
        ∀ other ∈ rest, c.step ≠ other := by
      intro c hc other hother
      rw [hload] at hc
      exact h c hc other (List.mem_cons_of_mem _ hother)
    obtain ⟨hsound, hsame⟩ := ih (hm.deleteStep thread step) hrest
    exact ⟨hsound, fun other => (hsame other).trans (hload other)⟩

theorem Sound.prune {m : MemoryStore} (hm : m.Sound) (thread : String) {keep : Nat}
    (hkeep : 1 ≤ keep) :
    (m.prune thread keep).2.Sound ∧
      ∀ other, (m.prune thread keep).2.load other = m.load other := by
  apply hm.foldl_deleteStep
  intro c hc step hstep
  obtain ⟨front, hhistory, hfront⟩ := (hm.history thread).of_latest? hc
  unfold MemoryStore.history History.steps at hstep
  rw [hhistory, List.map_append, List.map_cons, List.map_nil, List.take_append] at hstep
  -- What is kept is the last one at least, so only what stands in front of it is taken.
  have hnone : List.take ((front.map Prod.fst ++ [c.step]).length - keep -
      (front.map Prod.fst).length) [c.step] = [] := by
    rw [List.length_append, List.length_singleton]
    rw [show (front.map Prod.fst).length + 1 - keep - (front.map Prod.fst).length = 0 by omega]
    rfl
  rw [hnone, List.append_nil] at hstep
  obtain ⟨p, hp, rfl⟩ := List.mem_map.1 (List.mem_of_mem_take hstep)
  have := hfront p hp
  omega

theorem sound_empty : MemoryStore.empty.Sound :=
  ⟨List.Pairwise.nil, fun _ => ⟨List.Pairwise.nil, by simp [historyOf, empty]⟩⟩

end MemoryStore

/-- Whether what is kept in memory is sound. -/
def Storage.SoundMemory (s : Storage) : Prop := s.memory.Sound

/-- **The store in memory works.** -/
theorem Store.memory_works : Store.memory.Works Storage.SoundMemory where
  load _ _ _ := rfl
  saveElsewhere s c hs := by
    refine ⟨_, MemoryStore.Sound.save hs c, rfl, fun other hother => ?_⟩
    show (s.memory.save c).load other = s.memory.load other
    unfold MemoryStore.load
    rw [MemoryStore.historyOf_save, if_neg hother.symm]
  save s c hs hle := by
    refine ⟨rfl, MemoryStore.Sound.save hs c, ?_, fun other hother => ?_⟩
    · show (s.memory.save c).load c.thread = some c
      unfold MemoryStore.load
      rw [MemoryStore.historyOf_save, if_pos rfl]
      exact (hs.history c.thread).latest?_put hle
    · show (s.memory.save c).load other = s.memory.load other
      unfold MemoryStore.load
      rw [MemoryStore.historyOf_save, if_neg hother.symm]
  delete s thread hs := by
    refine ⟨rfl, MemoryStore.Sound.delete hs thread, ?_, fun other hother => ?_⟩
    · show (s.memory.delete thread).load thread = none
      unfold MemoryStore.load
      rw [MemoryStore.Sound.historyOf_delete hs, if_pos rfl]
      rfl
    · show (s.memory.delete thread).load other = s.memory.load other
      unfold MemoryStore.load
      rw [MemoryStore.Sound.historyOf_delete hs, if_neg hother.symm]
  prune s thread keep hs hkeep := by
    obtain ⟨hsound, hsame⟩ := MemoryStore.Sound.prune hs thread hkeep
    exact ⟨⟨_, rfl⟩, hsound, hsame thread, fun other _ => hsame other⟩

end WorkflowGraph
