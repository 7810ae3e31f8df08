import Mathlib.Data.String.Basic
import WorkflowGraph.Proofs.Checkpoint.Mirror

/-!
# The threads that a store lists

A store is to list the threads that have a checkpoint, each once and in rising order
(`Store.ListsThreads`). The memory does so after all changes, for a thread goes with its last
checkpoint (`MemoryStore.Filled`). A folder lists what the names in it stand for. The folder of a
thread stays when the last checkpoint in it goes, and the checkpoints of the thread without a name
are files right beside these folders. So the threads that a folder lists are those with a checkpoint
exactly if the thread without a name has none, and every thread whose folder stands has one
(`threads_are_listed_iff`).
-/

set_option autoImplicit false

namespace WorkflowGraph

/-- Whether a store lists exactly the threads that have a checkpoint, each once and in rising order. -/
def Store.ListsThreads (store : Store) (s : Storage) : Prop :=
  ∃ ids, store.threadIds s = .ok ids ∧ ids.Pairwise (· < ·) ∧
    ∀ thread, thread ∈ ids ↔ ∃ steps, store.history s thread = .ok steps ∧ steps ≠ []

/-! ## Threads in memory -/

theorem History.put_ne_nil (h : History) (c : Checkpoint) : h.put c ≠ [] := by
  intro hnil
  have hget := h.get?_put c c.step
  rw [hnil, if_pos rfl] at hget
  cases hget

namespace MemoryStore

variable {m : MemoryStore} {thread : String}

/-- Whether a store is sound and keeps no thread without a checkpoint. -/
structure Filled (m : MemoryStore) : Prop where
  sound : m.Sound
  full : ∀ thread, m.threads.get? thread ≠ some []

theorem filled_empty : MemoryStore.empty.Filled :=
  ⟨sound_empty, fun thread h => by cases h⟩

theorem Filled.save (hm : m.Filled) (c : Checkpoint) : (m.save c).Filled := by
  refine ⟨hm.sound.save c, fun thread => ?_⟩
  rw [MemoryStore.save, Dict.get?_put]
  split
  · intro h
    exact History.put_ne_nil _ c (Option.some.inj h)
  · exact hm.full thread

theorem Filled.delete (hm : m.Filled) (thread : String) : (m.delete thread).Filled := by
  refine ⟨hm.sound.delete thread, fun other => ?_⟩
  rw [MemoryStore.delete, hm.sound.rising.get?_drop]
  split
  · intro h
    cases h
  · exact hm.full other

theorem Filled.deleteStep (hm : m.Filled) (thread : String) (step : Nat) :
    (m.deleteStep thread step).Filled := by
  refine ⟨hm.sound.deleteStep thread step, ?_⟩
  unfold MemoryStore.deleteStep
  cases hget : m.threads.get? thread with
  | none => exact hm.full
  | some h =>
    dsimp only
    split
    · exact (hm.delete thread).full
    · next hrest =>
      intro other
      rw [Dict.get?_put]
      split
      · intro hnil
        exact hrest (List.isEmpty_iff.2 (Option.some.inj hnil))
      · exact hm.full other

theorem Filled.foldl_deleteStep (hm : m.Filled) (thread : String) (steps : List Nat) :
    (steps.foldl (fun m step => m.deleteStep thread step) m).Filled := by
  induction steps generalizing m with
  | nil => exact hm
  | cons step rest ih => exact ih (hm.deleteStep thread step)

/-- In a filled store the threads are those with a checkpoint. -/
theorem Filled.mem_threadIds_iff (hm : m.Filled) : thread ∈ m.threadIds ↔ m.history thread ≠ [] := by
  rw [threadIds, Dict.names, List.mem_map, history, historyOf, History.steps, Ne, List.map_eq_nil_iff]
  constructor
  · rintro ⟨⟨name, h⟩, hmem, rfl⟩
    obtain ⟨held, hget⟩ := Dict.exists_get?_of_mem hmem
    rw [hget]
    rintro rfl
    exact hm.full _ hget
  · intro hne
    cases hget : m.threads.get? thread with
    | none =>
      rw [hget] at hne
      exact absurd rfl hne
    | some h => exact ⟨(thread, h), Dict.mem_of_get? hget, rfl⟩

theorem Filled.listsThreads {s : Storage} (hm : s.memory.Filled) : Store.memory.ListsThreads s := by
  refine ⟨s.memory.threadIds, rfl, List.pairwise_map.2 hm.sound.rising, fun thread => ?_⟩
  rw [hm.mem_threadIds_iff]
  constructor
  · exact fun hne => ⟨_, rfl, hne⟩
  · rintro ⟨steps, hsteps, hne⟩
    cases hsteps
    exact hne

end MemoryStore

theorem StoreChange.perform_filled (change : StoreChange) {s : Storage} (hm : s.memory.Filled) :
    (change.perform .memory s).2.memory.Filled := by
  cases change with
  | save c => exact hm.save c
  | delete thread => exact hm.delete thread
  | deleteStep thread step => exact hm.deleteStep thread step
  | prune thread keep => exact hm.foldl_deleteStep thread _

/-- No change leaves a thread without a checkpoint in memory. By induction on the changes. -/
theorem Store.after_filled {s : Storage} (changes : List StoreChange) (hm : s.memory.Filled) :
    (Store.memory.after s changes).memory.Filled := by
  induction changes generalizing s with
  | nil => exact hm
  | cons change rest ih => exact ih (change.perform_filled hm)

/-! ## Threads in a folder -/

namespace FolderStore

variable {f : FolderStore} {s : Storage} {t : FileTree} {thread : String}

theorem pairwise_lt_mergeSort {ids : List String} (h : ids.Nodup) :
    (ids.mergeSort fun a b => decide (a ≤ b)).Pairwise (· < ·) := by
  have hsorted : (ids.mergeSort fun a b => decide (a ≤ b)).Pairwise
      fun a b => decide (a ≤ b) = true := by
    refine List.pairwise_mergeSort (fun _ _ _ hab hbc => ?_) (fun a b => ?_) ids
    · exact decide_eq_true (le_trans (of_decide_eq_true hab) (of_decide_eq_true hbc))
    · simpa using le_total a b
  have hnodup := (List.mergeSort_perm ids fun a b => decide (a ≤ b)).nodup_iff.2 h
  exact hsorted.imp₂ (fun a b hle hne => lt_of_le_of_ne (of_decide_eq_true hle) hne) hnodup

/-- A tidy folder lists what the names in it stand for, or there is nothing in it. -/
theorem Tidy.threadIds_eq (hf : f.Settled) (ht : f.Tidy t) :
    (f.threadIds t = .ok [] ∧ ∀ name, t.find? (f.base ++ [name]) = none) ∨
      ∃ entries, t.find? f.base = some (.folder entries) ∧
        f.threadIds t = .ok ((entries.filterMap fun e => Text.Percent.decode? e.1).mergeSort
          fun a b => decide (a ≤ b)) := by
  unfold FolderStore.threadIds
  cases hseek : seek? t f.path with
  | none =>
    refine .inl ⟨rfl, fun name => Option.eq_none_iff_forall_ne_some.2 fun x hx => ?_⟩
    -- What is in the folder could be reached, and so could the folder.
    obtain ⟨hpath, hopens⟩ := ht.reach name x hx
    rw [threadPath, Text.Percent.encode_empty] at hpath
    have hisPath := FileTree.isPath_of_join hf.path_ne
      (FileTree.isPath_of_append (FileTree.join_ne_empty hf.path_ne (by simp)) hpath)
    obtain ⟨entries, hbase⟩ := hopens _ (base_mem_stops hf)
    rw [seek?_eq_some_iff.2 ⟨FileTree.locate?_of_isOpen hf.path_ne hisPath hopens, hbase⟩] at hseek
    cases hseek
  | some found =>
    obtain ⟨p, x⟩ := found
    obtain ⟨hlocate, hx⟩ := seek?_eq_some_iff.1 hseek
    obtain ⟨-, -, -, rfl⟩ := FileTree.locate?_eq_some_iff.1 hlocate
    cases x with
    | file content =>
      rw [← base, ← home_unnamed] at hx
      exact absurd (ht.folder "" _ hx) (by simp [FileTree.isFolder])
    | folder entries => exact .inr ⟨entries, hx, rfl⟩

/-- What a tidy folder lists is what the names in it stand for, in rising order if all of them are
names of threads. -/
theorem Tidy.threadIds_spec (hf : f.Settled) (ht : f.Tidy t) :
    ∃ ids, f.threadIds t = .ok ids ∧
      (∀ thread, thread ∈ ids ↔ ∃ name x, t.find? (f.base ++ [name]) = some x ∧
        Text.Percent.decode? name = some thread) ∧
      ((∀ name x, t.find? (f.base ++ [name]) = some x → ∃ other, name = Text.Percent.encode other) →
        ids.Pairwise (· < ·)) := by
  obtain ⟨hids, hnone⟩ | ⟨entries, hbase, hids⟩ := ht.threadIds_eq hf
  · refine ⟨[], hids, fun thread => ?_, fun _ => List.Pairwise.nil⟩
    simp [hnone]
  · refine ⟨_, hids, fun thread => ?_, fun hnames => pairwise_lt_mergeSort ?_⟩
    · rw [List.mem_mergeSort, List.mem_filterMap]
      constructor
      · rintro ⟨⟨name, x⟩, he, hname⟩
        obtain ⟨y, hy⟩ := (mem_entries_iff hbase name).1 ⟨x, he⟩
        exact ⟨name, y, hy, hname⟩
      · rintro ⟨name, y, hy, hname⟩
        obtain ⟨x, he⟩ := (mem_entries_iff hbase name).2 ⟨y, hy⟩
        exact ⟨(name, x), he, hname⟩
    · -- The names differ, and names that differ stand for different threads.
      have hother : ∀ e ∈ entries, ∃ other, e.1 = Text.Percent.encode other := by
        intro e he
        obtain ⟨y, hy⟩ := (mem_entries_iff hbase e.1).1 ⟨e.2, he⟩
        exact hnames e.1 y hy
      refine List.pairwise_filterMap.2 ((ht.sound f.base entries hbase).imp_of_mem ?_)
      rintro e e' he he' hlt id hid _ hid' rfl
      obtain ⟨other, hname⟩ := hother e he
      obtain ⟨other', hname'⟩ := hother e' he'
      rw [hname, Text.Percent.decode?_encode, Option.some_inj] at hid
      rw [hname', Text.Percent.decode?_encode, Option.some_inj] at hid'
      rw [hname, hname', hid, hid'] at hlt
      exact lt_irrefl _ hlt

/-- A thread has no step in a tidy folder exactly if no name in its folder bears a number. -/
theorem Tidy.history_eq_nil_iff (hf : f.Settled) (ht : f.Tidy t) :
    f.history t thread = .ok [] ↔
      ∀ name x, t.find? (f.home thread ++ [name]) = some x → stepOf? name = none := by
  obtain ⟨steps, hsteps, -, hmem⟩ := ht.history_spec hf thread
  rw [hsteps, Except.ok.injEq, List.eq_nil_iff_forall_not_mem]
  constructor
  · intro hnone name x hx
    rw [Option.eq_none_iff_forall_ne_some]
    exact fun n hn => hnone n ((hmem n).2 ⟨name, x, hx, hn⟩)
  · intro hnone n hn
    obtain ⟨name, x, hx, hstep⟩ := (hmem n).1 hn
    rw [hnone name x hx] at hstep
    cases hstep

theorem Tidy.exists_steps_iff (hf : f.Settled) (ht : f.Tidy t) :
    (∃ steps, f.history t thread = .ok steps ∧ steps ≠ []) ↔ f.history t thread ≠ .ok [] := by
  obtain ⟨steps, hsteps, -⟩ := ht.history_spec hf thread
  rw [hsteps]
  simp

/-- **A tidy folder lists the threads with a checkpoint exactly if** the thread without a name has
none, and every other one whose folder stands has one. -/
theorem Tidy.listsThreads_iff (hf : f.Settled) (ht : f.Tidy s.files) :
    (Store.folder f).ListsThreads s ↔
      f.history s.files "" = .ok [] ∧ ∀ thread, thread ≠ "" →
        s.files.has (f.home thread) = true → f.history s.files thread ≠ .ok [] := by
  obtain ⟨ids, hids, hmem, hrising⟩ := ht.threadIds_spec hf
  constructor
  · rintro ⟨ids', hids', -, hlisted⟩
    cases hids.symm.trans hids'
    have hlisted (thread : String) :=
      (hmem thread).symm.trans ((hlisted thread).trans (ht.exists_steps_iff hf))
    refine ⟨?_, fun thread hthread hhas => ?_⟩
    · -- No name stands for the text without characters.
      by_contra hne
      obtain ⟨name, x, hx, hname⟩ := (hlisted "").2 hne
      rw [← home_unnamed] at hx
      rcases ht.names "" name x hx with ⟨step, -, rfl⟩ | ⟨-, other, hother, rfl⟩
      · rw [decode?_fileName, Option.some_inj] at hname
        have := f.dot_mem_fileName step
        simp [hname] at this
      · rw [Text.Percent.decode?_encode, Option.some_inj] at hname
        exact hother hname
    · obtain ⟨x, hx⟩ := Option.isSome_iff_exists.1 hhas
      rw [home_named hthread] at hx
      exact (hlisted thread).1 ⟨_, x, hx, Text.Percent.decode?_encode thread⟩
  · rintro ⟨hunnamed, hnamed⟩
    have hnames : ∀ name x, s.files.find? (f.base ++ [name]) = some x →
        ∃ other, other ≠ "" ∧ name = Text.Percent.encode other := by
      intro name x hx
      rw [← home_unnamed] at hx
      rcases ht.names "" name x hx with ⟨step, hstep, rfl⟩ | ⟨-, other, hother, rfl⟩
      · have hnone := (ht.history_eq_nil_iff hf).1 hunnamed _ x hx
        rw [stepOf?_fileName f hstep] at hnone
        cases hnone
      · exact ⟨other, hother, rfl⟩
    refine ⟨ids, hids, hrising fun name x hx => (hnames name x hx).imp fun _ h => h.2,
      fun thread => (hmem thread).trans (Iff.trans ?_ (ht.exists_steps_iff hf).symm)⟩
    constructor
    · rintro ⟨name, x, hx, hname⟩
      obtain ⟨other, hother, rfl⟩ := hnames name x hx
      rw [Text.Percent.decode?_encode, Option.some_inj] at hname
      subst hname
      apply hnamed other hother
      rw [FileTree.has, home_named hother, hx]
      rfl
    · intro hne
      have hthread : thread ≠ "" := by
        rintro rfl
        exact hne hunnamed
      rw [Ne, ht.history_eq_nil_iff hf] at hne
      simp only [not_forall] at hne
      obtain ⟨name, x, hx, -⟩ := hne
      obtain ⟨y, hy, -⟩ := FileTree.exists_of_find?_append hx
      rw [home_named hthread] at hy
      exact ⟨_, y, hy, Text.Percent.decode?_encode thread⟩

end FolderStore

/-- **The memory lists the threads that have a checkpoint, whatever has been done.** A folder that was
fresh does so, after changes that all succeeded, exactly if the thread without a name has no
checkpoint, and every other thread whose folder stands has one. -/
theorem threads_are_listed_iff (s : Storage) (changes : List StoreChange) :
    (s.memory = .empty → Store.memory.ListsThreads (Store.memory.after s changes)) ∧
    ∀ f : FolderStore, f.Owns s.files → (Store.folder f).Completes s changes →
      (∀ c, .save c ∈ changes → c.step < UInt64.size) →
      ((Store.folder f).ListsThreads ((Store.folder f).after s changes) ↔
        (Store.folder f).history ((Store.folder f).after s changes) "" = .ok [] ∧
        ∀ thread, thread ≠ "" → standsAfter thread changes = true →
          (Store.folder f).history ((Store.folder f).after s changes) thread ≠ .ok []) := by
  refine ⟨fun hmemory => ?_, fun f h hdone hstep => ?_⟩
  · have hfilled : s.memory.Filled := hmemory ▸ MemoryStore.filled_empty
    exact (Store.after_filled changes hfilled).listsThreads
  · obtain ⟨htidy, hstands⟩ := h.arranged hdone hstep
    rw [htidy.listsThreads_iff h.settled]
    refine and_congr_right' (forall_congr' fun thread => forall_congr' fun hthread => ?_)
    rw [hstands thread hthread]
    exact Iff.rfl

/-- A thread that has been saved is listed. -/
theorem saved_thread_is_listed :
    bareFolder.Owns Storage.empty.files ∧
      (Store.folder bareFolder).Completes .empty [.save bareCheckpoint] ∧
      (Store.folder bareFolder).ListsThreads
        ((Store.folder bareFolder).after .empty [.save bareCheckpoint]) := by
  have hcompletes : (Store.folder bareFolder).Completes .empty [.save bareCheckpoint] :=
    Store.completes_cons bareCheckpoint_saved (Store.completes_nil _ _)
  refine ⟨bareFolder_owns, hcompletes,
    ((threads_are_listed_iff _ _).2 _ bareFolder_owns hcompletes ?_).2 ⟨?_, ?_⟩⟩
  · intro c hc
    cases List.mem_singleton.1 hc
    decide
  · with_unfolding_all rfl
  · intro thread _ hstands
    obtain rfl : "a" = thread := by
      simpa [standsAfter, StoreChange.stands, bareCheckpoint] using hstands
    have hhistory : (Store.folder bareFolder).history
        ((Store.folder bareFolder).after .empty [.save bareCheckpoint]) "a" = .ok [0] := by
      with_unfolding_all rfl
    rw [hhistory]
    simp

/-- A thread whose last step has been forgotten is listed still, though it has no checkpoint. -/
theorem emptied_thread_is_listed :
    bareFolder.Owns Storage.empty.files ∧
      (Store.folder bareFolder).Completes .empty [.save bareCheckpoint, .deleteStep "a" 0] ∧
      (Store.folder bareFolder).threadIds
          ((Store.folder bareFolder).after .empty [.save bareCheckpoint, .deleteStep "a" 0]) =
        .ok ["a"] ∧
      (Store.folder bareFolder).history
          ((Store.folder bareFolder).after .empty [.save bareCheckpoint, .deleteStep "a" 0]) "a" =
        .ok [] := by
  refine ⟨bareFolder_owns, ?_, ?_, ?_⟩
  · refine Store.completes_cons bareCheckpoint_saved (Store.completes_cons ?_ (Store.completes_nil _ _))
    with_unfolding_all rfl
  · have hseek : FolderStore.seek? ((Store.folder bareFolder).after .empty
        [.save bareCheckpoint, .deleteStep "a" 0]).files bareFolder.path =
          some (["checkpoints"], .folder [("a", .folder [])]) := by
      with_unfolding_all rfl
    have hname : Text.Percent.decode? "a" = some "a" := Text.Percent.decode?_of_plain (by simp)
    simp only [Store.threadIds, FolderStore.threadIds, hseek, List.filterMap_cons, hname,
      List.filterMap_nil, List.mergeSort_singleton]
  · with_unfolding_all rfl

end WorkflowGraph
