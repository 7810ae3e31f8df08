import Mathlib.Data.List.Sort
import WorkflowGraph.Proofs.Checkpoint.Memory
import WorkflowGraph.Proofs.Checkpoint.Names
import WorkflowGraph.Proofs.FileTree.Paths

/-!
# What a folder of checkpoints holds

In a tidy tree (`FolderStore.Tidy`) the store's own folder holds nothing but the folders of threads
and the files of the thread without a name, which shares this folder. Whether a thread's files are
exactly those of a history is said by `FolderStore.Holds`, and then everything that is read of the
thread is what the history says: steps one by one (`FolderStore.Holds.loadStep`), the list of steps
(`FolderStore.Holds.history_iff`) and the latest checkpoint (`FolderStore.Holds.load`). For the thread
without a name this takes that no other thread's folder bears a number, which would count as a step.
-/

set_option autoImplicit false

namespace WorkflowGraph

/-! ## Histories by their steps -/

namespace History

theorem get?_cons (step : Nat) (c : Checkpoint) (rest : History) (n : Nat) :
    get? ((step, c) :: rest) n = if step = n then some c else get? rest n := by
  unfold get?
  by_cases h : step = n
  · rw [if_pos h, List.find?_cons_of_pos (by simpa using h)]
    rfl
  · rw [if_neg h, List.find?_cons_of_neg (by simpa using h)]

theorem get?_put (h : History) (c : Checkpoint) (n : Nat) :
    (h.put c).get? n = if c.step = n then some c else h.get? n := by
  induction h with
  | nil => exact get?_cons _ _ _ _
  | cons p rest ih =>
    obtain ⟨step, old⟩ := p
    unfold put
    split
    · rw [get?_cons]
    · split
      · next heq =>
        rw [get?_cons, get?_cons, ← heq]
        split
        · rfl
        · rfl
      · next hne =>
        rw [get?_cons, ih, get?_cons]
        by_cases hn : step = n
        · rw [if_pos hn, if_pos hn, if_neg (hn ▸ hne)]
        · rw [if_neg hn, if_neg hn]

theorem get?_drop (h : History) (step n : Nat) :
    History.get? (History.drop h step) n = if step = n then none else h.get? n := by
  induction h with
  | nil =>
    split
    · rfl
    · rfl
  | cons p rest ih =>
    obtain ⟨s, c⟩ := p
    unfold History.drop at ih ⊢
    rw [List.filter_cons]
    split
    · next hkept =>
      have hne : s ≠ step := by simpa using hkept
      rw [get?_cons, ih, get?_cons]
      by_cases hn : s = n
      · rw [if_pos hn, if_pos hn, if_neg (hn ▸ hne.symm)]
      · rw [if_neg hn, if_neg hn]
    · next hgone =>
      have heq : s = step := by simpa using hgone
      rw [ih, get?_cons, heq]
      split
      · rfl
      · rfl

theorem mem_steps_iff {h : History} {step : Nat} : step ∈ h.steps ↔ ∃ c, h.get? step = some c := by
  induction h with
  | nil => simp [steps, get?]
  | cons p rest ih =>
    obtain ⟨s, c⟩ := p
    rw [get?_cons]
    show step ∈ s :: steps rest ↔ _
    rw [List.mem_cons, ih]
    by_cases hs : s = step
    · simp [hs]
    · simp [hs, Ne.symm hs]

theorem Sound.pairwise_steps {h : History} (hs : h.Sound) : h.steps.Pairwise (· < ·) :=
  List.pairwise_map.2 hs.rising

/-- The latest checkpoint is that of the last step. By induction on the history, in which no step
comes twice. -/
theorem Sound.latest?_eq {h : History} (hs : h.Sound) :
    h.latest? = h.steps.getLast?.bind h.get? := by
  cases hlast : h.getLast? with
  | none =>
    rw [List.getLast?_eq_none_iff.1 hlast]
    rfl
  | some p =>
    obtain ⟨front, rfl⟩ := List.getLast?_eq_some_iff.1 hlast
    obtain ⟨step, c⟩ := p
    have hget : get? (front ++ [(step, c)]) step = some c := by
      unfold get?
      rw [List.find?_append, List.find?_eq_none.2]
      · simp
      · intro q hq
        have := (List.pairwise_append.1 hs.rising).2.2 q hq _ (List.mem_singleton.2 rfl)
        simp only [beq_iff_eq]
        omega
    unfold latest? steps
    rw [hlast, List.map_append, List.map_singleton, List.getLast?_concat, Option.bind_some, hget]
    rfl

end History

namespace FolderStore

variable {f : FolderStore} {t : FileTree} {thread name : String}

/-! ## The places of threads -/

/-- The place of the store's own folder. -/
def base (f : FolderStore) : List String := FileTree.place f.path

/-- The place of the folder of a thread. The thread without a name has the store's own folder. -/
def home (f : FolderStore) (thread : String) : List String :=
  f.base ++ if thread = "" then [] else [Text.Percent.encode thread]

/-- Whether a store has a folder for itself alone: this is not the root, and the path to it does not
lead through its inside. -/
structure Settled (f : FolderStore) : Prop where
  base_ne : f.base ≠ []
  outside : ∀ q ∈ FileTree.stops [] (FileTree.way f.path), f.base <+: q → q = f.base

/-- Whether all that is passed on the path to the store's folder are folders, this one included. -/
def Opens (f : FolderStore) (t : FileTree) : Prop :=
  ∀ q ∈ FileTree.stops [] (FileTree.way f.path), t.IsOpen q

theorem home_unnamed (f : FolderStore) : f.home "" = f.base := by
  rw [home, if_pos rfl, List.append_nil]

theorem home_named (h : thread ≠ "") : f.home thread = f.base ++ [Text.Percent.encode thread] := by
  rw [home, if_neg h]

theorem Settled.path_ne (hf : f.Settled) : f.path ≠ "" := by
  intro h
  apply hf.base_ne
  rw [base, h]
  decide

/-- A folder whose path does not lead back is there for the store alone, if it is not the root. -/
theorem settled_of_not_mem (hbase : f.base ≠ []) (hback : ".." ∉ FileTree.namesOf f.path) :
    f.Settled := by
  have hpath : f.path ≠ "" := by
    intro h
    apply hbase
    rw [base, h]
    decide
  refine ⟨hbase, fun q hq hle => ?_⟩
  have hway : ".." ∉ FileTree.way f.path := by
    intro hmem
    apply hback
    unfold FileTree.way at hmem
    split at hmem
    · exact (List.dropLast_sublist _).subset hmem
    · exact hmem
  have hge := FileTree.isPrefix_of_mem_stops hway hq
  rw [FileTree.foldl_way hpath] at hge
  exact hge.eq_of_length_le hle.length_le

theorem slash_not_mem_encode (thread : String) : '/' ∉ (Text.Percent.encode thread).toList :=
  fun h => (Text.Percent.plain_of_mem_encode h).2 rfl

/-- The name of a thread has no dot, so no file of a checkpoint has this name. -/
theorem encode_ne_of_dot {name : String} (h : '.' ∈ name.toList) (thread : String) :
    Text.Percent.encode thread ≠ name := by
  rintro rfl
  exact (Text.Percent.plain_of_mem_encode h).1 rfl

theorem step_encode (f : FolderStore) (thread : String) :
    FileTree.place.step f.base (Text.Percent.encode thread) = f.home thread := by
  by_cases h : thread = ""
  · rw [h, Text.Percent.encode_empty, home_unnamed, FileTree.place.step, if_pos (.inl rfl)]
  · have hempty : Text.Percent.encode thread ≠ "" := fun he => h (Text.Percent.encode_eq_empty_iff.1 he)
    have hdot : Text.Percent.encode thread ≠ "." := encode_ne_of_dot (by decide) thread
    have hback : Text.Percent.encode thread ≠ ".." := encode_ne_of_dot (by decide) thread
    rw [FileTree.place.step, if_neg (by simp [hempty, hdot]), if_neg hback, home_named h]

theorem step_fileName (f : FolderStore) (place : List String) (step : Nat) :
    FileTree.place.step place (f.fileName step) = place ++ [f.fileName step] := by
  have hmem : 'c' ∈ (f.fileName step).toList := by
    rw [fileName_eq]
    simp [nameStart]
  have hne {s : String} (hs : 'c' ∉ s.toList) : f.fileName step ≠ s := by
    rintro rfl
    exact hs hmem
  rw [FileTree.place.step, if_neg, if_neg (hne (by decide))]
  rw [not_or]
  exact ⟨hne (by decide), hne (by decide)⟩

theorem place_threadPath (hf : f.Settled) (thread : String) :
    FileTree.place (f.threadPath thread) = f.home thread := by
  rw [threadPath, FileTree.place, FileTree.namesOf_join hf.path_ne (slash_not_mem_encode thread),
    List.foldl_append, FileTree.foldl_way hf.path_ne]
  exact f.step_encode thread

theorem threadPath_ne (hf : f.Settled) (thread : String) : f.threadPath thread ≠ "" :=
  FileTree.join_ne_empty hf.path_ne (slash_not_mem_encode thread)

theorem base_mem_stops (hf : f.Settled) : f.base ∈ FileTree.stops [] (FileTree.way f.path) := by
  rw [base, ← FileTree.foldl_way hf.path_ne]
  exact FileTree.mem_stops_last _ _

/-- On the path to a thread's folder nothing else is passed than on that to the store's. -/
theorem mem_stops_thread (hf : f.Settled) {q : List String} :
    q ∈ FileTree.stops [] (FileTree.way f.path ++ [Text.Percent.encode thread]) ↔
      q ∈ FileTree.stops [] (FileTree.way f.path) ∨ q = f.home thread := by
  have hlast : FileTree.stops ((FileTree.way f.path).foldl FileTree.place.step [])
      [Text.Percent.encode thread] = [f.base, f.home thread] := by
    rw [FileTree.foldl_way hf.path_ne, FileTree.stops_cons, ← f.step_encode thread]
    rfl
  rw [FileTree.mem_stops_append, hlast, List.mem_cons, List.mem_singleton]
  constructor
  · rintro (hq | rfl | hq)
    · exact .inl hq
    · exact .inl (base_mem_stops hf)
    · exact .inr hq
  · rintro (hq | hq)
    · exact .inl hq
    · exact .inr (.inr hq)

theorem forall_stops_iff (hf : f.Settled) {P : List String → Prop} :
    (∀ q ∈ FileTree.stops [] (FileTree.way (f.threadPath thread)), P q) ↔
      (∀ q ∈ FileTree.stops [] (FileTree.way f.path), P q) ∧ P (f.home thread) := by
  rw [threadPath]
  by_cases h : thread = ""
  · rw [h, Text.Percent.encode_empty, FileTree.way_join_empty hf.path_ne, home_unnamed]
    exact ⟨fun hall => ⟨hall, hall _ (base_mem_stops hf)⟩, fun hall => hall.1⟩
  · have hempty : Text.Percent.encode thread ≠ "" := fun he => h (Text.Percent.encode_eq_empty_iff.1 he)
    rw [FileTree.way_join hf.path_ne (slash_not_mem_encode thread) hempty]
    simp only [mem_stops_thread hf, or_imp, forall_and, forall_eq]

/-! ## What paths lead to -/

theorem seek?_eq_some_iff {path : String} {p : List String} {x : FileTree} :
    seek? t path = some (p, x) ↔ t.locate? path = some p ∧ t.find? p = some x := by
  simp only [seek?, Option.bind_eq_some_iff, Option.map_eq_some_iff, Prod.mk.injEq]
  constructor
  · rintro ⟨place, hplace, found, hfound, rfl, rfl⟩
    exact ⟨hplace, hfound⟩
  · rintro ⟨hplace, hfound⟩
    exact ⟨p, hplace, x, hfound, rfl, rfl⟩

theorem seek?_thread (hf : f.Settled) {p : List String} {x : FileTree} :
    seek? t (f.threadPath thread) = some (p, x) ↔
      (FileTree.isPath (f.threadPath thread) = true ∧ f.Opens t) ∧ p = f.home thread ∧
        t.find? p = some x := by
  rw [seek?_eq_some_iff, threadPath,
    FileTree.locate?_join hf.path_ne (slash_not_mem_encode thread), ← base, step_encode]
  constructor
  · rintro ⟨⟨hpath, hopens, -, hp⟩, hx⟩
    exact ⟨⟨hpath, hopens⟩, hp, hx⟩
  · rintro ⟨⟨hpath, hopens⟩, hp, hx⟩
    refine ⟨⟨hpath, hopens, ?_, hp⟩, hx⟩
    rw [FileTree.has, hx]
    rfl

theorem seek?_file (hf : f.Settled) {step : Nat} {p : List String} {x : FileTree} :
    seek? t (f.filePath thread step) = some (p, x) ↔
      (FileTree.isPath (f.filePath thread step) = true ∧ f.Opens t) ∧
        p = f.home thread ++ [f.fileName step] ∧ t.find? p = some x := by
  rw [seek?_eq_some_iff, filePath,
    FileTree.locate?_join (threadPath_ne hf thread) (f.slash_not_mem_fileName step),
    place_threadPath hf, step_fileName, forall_stops_iff hf]
  constructor
  · rintro ⟨⟨hpath, ⟨hopens, -⟩, -, hp⟩, hx⟩
    exact ⟨⟨hpath, hopens⟩, hp, hx⟩
  · rintro ⟨⟨hpath, hopens⟩, rfl, hx⟩
    refine ⟨⟨hpath, ⟨hopens, FileTree.isOpen_of_find?_snoc hx⟩, ?_, rfl⟩, hx⟩
    rw [FileTree.has, hx]
    rfl

/-! ## Tidy trees -/

/-- Whether nothing but checkpoints and the folders of threads is in the store's own folder, all of
it within reach. -/
structure Tidy (f : FolderStore) (t : FileTree) : Prop where
  sound : t.Sound
  root : t.IsOpen []
  folder : ∀ thread x, t.find? (f.home thread) = some x → x.isFolder = true
  reach : ∀ name x, t.find? (f.base ++ [name]) = some x →
    FileTree.isPath (f.threadPath "" ++ name) = true ∧ f.Opens t
  names : ∀ thread name x, t.find? (f.home thread ++ [name]) = some x →
    (∃ step, step < UInt64.size ∧ name = f.fileName step) ∨
      thread = "" ∧ ∃ other, other ≠ "" ∧ name = Text.Percent.encode other

/-- Whether the files of a thread are those of a history, which can all be read again. -/
structure Holds (f : FolderStore) (t : FileTree) (thread : String) (h : History) : Prop where
  sound : h.Sound
  file : ∀ step, t.find? (f.home thread ++ [f.fileName step]) =
    (h.get? step).map fun c => .file (f.contentOf (Json.pretty c.toValue))
  fits : ∀ step c, h.get? step = some c → step < UInt64.size ∧
    FileTree.isPath (f.filePath thread step) = true ∧
      checkpointOf (Json.pretty c.toValue) = .ok c

/-- Whether the folder of another thread bears a number, which counts as a step of the thread without
a name. -/
def Strays (f : FolderStore) (t : FileTree) (step : Nat) : Prop :=
  ∃ other, other ≠ "" ∧ stepOf? (Text.Percent.encode other) = some step ∧
    t.has (f.home other) = true

theorem threadPath_eq (hf : f.Settled) (thread : String) :
    f.threadPath thread = f.threadPath "" ++ Text.Percent.encode thread := by
  rw [threadPath, threadPath, Text.Percent.encode_empty]
  exact FileTree.join_eq_append hf.path_ne (slash_not_mem_encode thread)

theorem filePath_unnamed (hf : f.Settled) (step : Nat) :
    f.filePath "" step = f.threadPath "" ++ f.fileName step := by
  rw [filePath, threadPath, Text.Percent.encode_empty,
    FileTree.join_join_empty hf.path_ne (f.slash_not_mem_fileName step)]
  exact FileTree.join_eq_append hf.path_ne (f.slash_not_mem_fileName step)

/-- What is in a thread's folder is within reach. -/
theorem Tidy.reached (ht : f.Tidy t) (hf : f.Settled) {x : FileTree}
    (hx : t.find? (f.home thread ++ [name]) = some x) :
    FileTree.isPath (f.threadPath thread) = true ∧ f.Opens t := by
  by_cases h : thread = ""
  · subst h
    rw [home_unnamed] at hx
    obtain ⟨hpath, hopens⟩ := ht.reach name x hx
    exact ⟨FileTree.isPath_of_append (threadPath_ne hf "") hpath, hopens⟩
  · rw [home_named h] at hx
    obtain ⟨y, hy, -⟩ := FileTree.exists_of_find?_append hx
    rw [threadPath_eq hf]
    exact ht.reach _ y hy

/-! ## Reading a thread -/

theorem textOf_contentOf (f : FolderStore) (text : String) :
    f.textOf (f.contentOf text) = .ok text := by
  unfold contentOf
  split
  · next h => exact if_pos h
  · next h => exact if_neg h

/-- The checkpoint of a step is read from the file of the step. -/
theorem Holds.loadStep (hf : f.Settled) (ht : f.Tidy t) {h : History}
    (hh : f.Holds t thread h) (step : Nat) : f.loadStep t thread step = .ok (h.get? step) := by
  have hfile := hh.file step
  unfold FolderStore.loadStep
  cases hget : h.get? step with
  | none =>
    rw [hget] at hfile
    have hnone : seek? t (f.filePath thread step) = none := by
      rw [Option.eq_none_iff_forall_ne_some]
      rintro ⟨p, x⟩ hseek
      obtain ⟨-, rfl, hx⟩ := (seek?_file hf).1 hseek
      rw [hfile] at hx
      cases hx
    rw [hnone]
  | some c =>
    rw [hget] at hfile
    obtain ⟨-, hpath, hread⟩ := hh.fits step c hget
    have hopens := (ht.reached hf hfile).2
    rw [(seek?_file hf).2 ⟨⟨hpath, hopens⟩, rfl, hfile⟩]
    dsimp only
    rw [textOf_contentOf]
    show (checkpointOf (Json.pretty c.toValue) >>= fun c => pure (some c)) = _
    rw [hread]
    rfl

theorem mem_insertStep_iff {step n : Nat} {steps : List Nat} :
    n ∈ insertStep step steps ↔ n = step ∨ n ∈ steps := by
  induction steps with
  | nil => simp [insertStep]
  | cons s rest ih =>
    unfold insertStep
    split
    · exact List.mem_cons
    · split
      · next heq => simp [heq]
      · simp only [List.mem_cons, ih]
        exact or_left_comm

theorem pairwise_insertStep {steps : List Nat} (h : steps.Pairwise (· < ·)) (step : Nat) :
    (insertStep step steps).Pairwise (· < ·) := by
  induction steps with
  | nil => exact List.pairwise_singleton _ _
  | cons s rest ih =>
    obtain ⟨hs, hrest⟩ := List.pairwise_cons.1 h
    unfold insertStep
    split
    · next hlt =>
      refine List.pairwise_cons.2 ⟨fun n hn => ?_, h⟩
      rcases List.mem_cons.1 hn with rfl | hn
      · exact hlt
      · exact Nat.lt_trans hlt (hs n hn)
    · split
      · exact h
      · next hlt hne =>
        refine List.pairwise_cons.2 ⟨fun n hn => ?_, ih hrest⟩
        rcases mem_insertStep_iff.1 hn with rfl | hn
        · omega
        · exact hs n hn

/-- The steps of a folder are the numbers that its entries bear, rising. -/
theorem stepsIn_spec (entries : List (String × FileTree)) :
    (stepsIn entries).Pairwise (· < ·) ∧
      ∀ n, n ∈ stepsIn entries ↔ ∃ e ∈ entries, stepOf? e.1 = some n := by
  have hfold (found : List Nat) : ∀ steps : List Nat, steps.Pairwise (· < ·) →
      (found.foldl (fun steps s => insertStep s steps) steps).Pairwise (· < ·) ∧
        ∀ n, n ∈ found.foldl (fun steps s => insertStep s steps) steps ↔
          n ∈ found ∨ n ∈ steps := by
    induction found with
    | nil => exact fun steps h => ⟨h, by simp⟩
    | cons s rest ih =>
      intro steps h
      obtain ⟨hpair, hmem⟩ := ih _ (pairwise_insertStep h s)
      refine ⟨hpair, fun n => ?_⟩
      rw [List.foldl_cons, hmem, mem_insertStep_iff, List.mem_cons]
      exact or_left_comm.trans or_assoc.symm
  obtain ⟨hpair, hmem⟩ := hfold (entries.filterMap fun e => stepOf? e.1) [] List.Pairwise.nil
  refine ⟨hpair, fun n => (hmem n).trans ?_⟩
  rw [List.mem_filterMap]
  simp

theorem mem_entries_iff {entries : List (String × FileTree)} {p : List String}
    (h : t.find? p = some (.folder entries)) (name : String) :
    (∃ x, (name, x) ∈ entries) ↔ ∃ x, t.find? (p ++ [name]) = some x := by
  rw [FileTree.find?_append, h, Option.bind_some, FileTree.find?_folder_cons]
  constructor
  · rintro ⟨x, hx⟩
    obtain ⟨y, hy⟩ := Dict.exists_get?_of_mem hx
    refine ⟨y, ?_⟩
    rw [hy]
    rfl
  · rintro ⟨x, hx⟩
    obtain ⟨y, hy, -⟩ := Option.bind_eq_some_iff.1 hx
    exact ⟨y, Dict.mem_of_get? hy⟩

/-- The steps of a thread in a tidy tree are the numbers that the entries of its folder bear. -/
theorem Tidy.history_spec (hf : f.Settled) (ht : f.Tidy t) (thread : String) :
    ∃ steps, f.history t thread = .ok steps ∧ steps.Pairwise (· < ·) ∧
      ∀ n, n ∈ steps ↔ ∃ name x, t.find? (f.home thread ++ [name]) = some x ∧
        stepOf? name = some n := by
  unfold FolderStore.history
  cases hseek : seek? t (f.threadPath thread) with
  | none =>
    refine ⟨[], rfl, List.Pairwise.nil, fun n => ?_⟩
    constructor
    · intro hn
      cases hn
    · rintro ⟨name, x, hx, -⟩
      obtain ⟨entries, hhome⟩ := FileTree.isOpen_of_find?_snoc hx
      rw [(seek?_thread hf).2 ⟨ht.reached hf hx, rfl, hhome⟩] at hseek
      cases hseek
  | some found =>
    obtain ⟨p, x⟩ := found
    obtain ⟨-, rfl, hx⟩ := (seek?_thread hf).1 hseek
    cases x with
    | file content => exact absurd (ht.folder thread _ hx) (by simp [FileTree.isFolder])
    | folder entries =>
      obtain ⟨hpair, hmem⟩ := stepsIn_spec entries
      refine ⟨stepsIn entries, rfl, hpair, fun n => (hmem n).trans ?_⟩
      constructor
      · rintro ⟨⟨name, x⟩, he, hn⟩
        obtain ⟨y, hy⟩ := (mem_entries_iff hx name).1 ⟨x, he⟩
        exact ⟨name, y, hy, hn⟩
      · rintro ⟨name, y, hy, hn⟩
        obtain ⟨x, he⟩ := (mem_entries_iff hx name).2 ⟨y, hy⟩
        exact ⟨(name, x), he, hn⟩

/-- The steps of a thread are those of its history, and for the thread without a name the numbers
that the folders of other threads bear. -/
theorem Holds.mem_history_iff (ht : f.Tidy t) {h : History}
    (hh : f.Holds t thread h) {n : Nat} :
    (∃ name x, t.find? (f.home thread ++ [name]) = some x ∧ stepOf? name = some n) ↔
      n ∈ h.steps ∨ thread = "" ∧ f.Strays t n := by
  rw [History.mem_steps_iff]
  constructor
  · rintro ⟨name, x, hx, hn⟩
    rcases ht.names thread name x hx with ⟨step, hstep, rfl⟩ | ⟨rfl, other, hother, rfl⟩
    · rw [stepOf?_fileName f hstep] at hn
      cases hn
      rw [hh.file] at hx
      obtain ⟨c, hc, -⟩ := Option.map_eq_some_iff.1 hx
      exact .inl ⟨c, hc⟩
    · refine .inr ⟨rfl, other, hother, hn, ?_⟩
      rw [home_unnamed, ← home_named hother] at hx
      rw [FileTree.has, hx]
      rfl
  · rintro (⟨c, hc⟩ | ⟨rfl, other, hother, hn, hhas⟩)
    · have hfile := hh.file n
      rw [hc] at hfile
      exact ⟨f.fileName n, _, hfile, stepOf?_fileName f (hh.fits n c hc).1⟩
    · obtain ⟨x, hx⟩ := Option.isSome_iff_exists.1 hhas
      rw [home_named hother] at hx
      exact ⟨Text.Percent.encode other, x, by rw [home_unnamed]; exact hx, hn⟩

/-- The steps of a thread are those of its history, exactly if no other thread's folder adds one. -/
theorem Holds.history_iff (hf : f.Settled) (ht : f.Tidy t) {h : History}
    (hh : f.Holds t thread h) :
    f.history t thread = .ok h.steps ↔ ∀ n, thread = "" → f.Strays t n → n ∈ h.steps := by
  obtain ⟨steps, hsteps, hpair, hmem⟩ := ht.history_spec hf thread
  rw [hsteps, Except.ok.injEq]
  constructor
  · rintro rfl n hthread hstray
    rw [hmem, hh.mem_history_iff ht]
    exact .inr ⟨hthread, hstray⟩
  · intro hnone
    apply hpair.eq_of_mem_iff hh.sound.pairwise_steps
    intro n
    rw [hmem, hh.mem_history_iff ht]
    constructor
    · rintro (hn | ⟨hthread, hstray⟩)
      · exact hn
      · exact hnone n hthread hstray
    · exact .inl

/-- Where the list of steps is right, so is the latest checkpoint. -/
theorem Holds.load (hf : f.Settled) (ht : f.Tidy t) {h : History} (hh : f.Holds t thread h)
    (hhistory : f.history t thread = .ok h.steps) : f.load t thread = .ok h.latest? := by
  unfold FolderStore.load
  rw [hhistory, hh.sound.latest?_eq]
  dsimp only [bind, Except.bind]
  cases h.steps.getLast? with
  | none => rfl
  | some step => exact hh.loadStep hf ht step

end FolderStore

end WorkflowGraph
