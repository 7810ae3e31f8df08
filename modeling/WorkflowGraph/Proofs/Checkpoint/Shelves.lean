import Mathlib.Logic.Function.Basic
import WorkflowGraph.Proofs.Checkpoint.FolderChanges

/-!
# A folder of checkpoints, thread by thread

What a folder holds for a thread that has a name are the entries of this thread's folder, whatever
stands in them (`FolderStore.shelf`). All that is done for such a thread depends on nothing else,
and changes nothing else (`FolderStore.Shifts`), as long as the store can work with what is there
(`FolderStore.Usable`). It can after each operation if it could before. To forget a thread and to
prune it never fail then; whether a checkpoint can be saved depends on its names only
(`FolderStore.saving`).
-/

set_option autoImplicit false

namespace WorkflowGraph.FolderStore

variable {f : FolderStore} {t t' u : FileTree} {thread other name : String}

/-! ## Shelves -/

/-- The entries of the folder of a thread, by their names. The thread without a name has none that
are its own. -/
def shelf (f : FolderStore) (t : FileTree) (thread : String) (name : String) : Option FileTree :=
  if thread = "" then none else t.find? (f.home thread ++ [name])

/-- Whether a store can work with a tree: no file stands on the way to its folder, and what bears
the name of a thread is a folder within reach, where no folder takes the place of a checkpoint. -/
structure Usable (f : FolderStore) (t : FileTree) : Prop where
  sound : t.Sound
  root : t.IsOpen []
  way : ∀ q ∈ FileTree.stops [] (FileTree.way f.path), t.Passable q
  reach : ∀ thread x, thread ≠ "" → t.find? (f.home thread) = some x →
    x.isFolder = true ∧ FileTree.isPath (f.threadPath thread) = true ∧ f.Opens t
  files : ∀ thread name step x, thread ≠ "" → (name = f.fileName step ∨ name = draftName step) →
    t.find? (f.home thread ++ [name]) = some x → x.isFolder = false

/-- What an operation on one thread leaves: its shelf is changed, and no other one. -/
structure Shifts (f : FolderStore) (t : FileTree) (thread : String)
    (change : (String → Option FileTree) → String → Option FileTree) (t' : FileTree) : Prop where
  usable : f.Usable t'
  here : f.shelf t' thread = change (f.shelf t thread)
  elsewhere : ∀ other, other ≠ thread → f.shelf t' other = f.shelf t other

theorem shelf_named (h : thread ≠ "") (name : String) :
    f.shelf t thread name = t.find? (f.home thread ++ [name]) := if_neg h

/-- Shelves are the same where all that is found on them is. -/
theorem shelf_eq (h : thread ≠ "" → ∀ name,
      t'.find? (f.home thread ++ [name]) = t.find? (f.home thread ++ [name])) :
    f.shelf t' thread = f.shelf t thread := by
  funext name
  unfold shelf
  split
  · rfl
  · next hthread => exact h hthread name

theorem Shifts.refl (hu : f.Usable t) : f.Shifts t thread id t := ⟨hu, rfl, fun _ _ => rfl⟩

theorem Shifts.trans {change change' : (String → Option FileTree) → String → Option FileTree}
    (h : f.Shifts t thread change u) (h' : f.Shifts u thread change' t') :
    f.Shifts t thread (fun shelf => change' (change shelf)) t' where
  usable := h'.usable
  here := by rw [h'.here, h.here]
  elsewhere other hne := (h'.elsewhere other hne).trans (h.elsewhere other hne)

theorem Opens.usable_way (h : f.Opens t) :
    ∀ q ∈ FileTree.stops [] (FileTree.way f.path), t.Passable q :=
  fun q hq => (h q hq).passable

/-- A store can work with its own folder as long as there is nothing in it. -/
theorem Bare.usable (h : f.Bare t) (hs : t.Sound) (hroot : t.IsOpen [])
    (hway : ∀ q ∈ FileTree.stops [] (FileTree.way f.path), t.Passable q) : f.Usable t where
  sound := hs
  root := hroot
  way := hway
  reach thread x hthread hx := by
    rw [h.find?_home hthread] at hx
    cases hx
  files thread name step x hthread _ hx := by
    rw [h.find?_inside thread name] at hx
    cases hx

/-- A store can work with a tree in which there is nothing yet. -/
theorem usable_empty (f : FolderStore) : f.Usable .empty := by
  have hnone {p : List String} (hp : p ≠ []) : FileTree.empty.find? p = none :=
    FileTree.find?_empty hp
  have hroot : FileTree.empty.IsOpen [] := ⟨[], rfl⟩
  refine Bare.usable (fun _ _ => hnone (by simp)) FileTree.sound_empty hroot fun q _ => ?_
  by_cases hq : q = []
  · exact hq ▸ hroot.passable
  · intro x hx
    rw [hnone hq] at hx
    cases hx

/-! ## What is found -/

theorem Usable.isOpen (hu : f.Usable t) (hthread : thread ≠ "") {x : FileTree}
    (hx : t.find? (f.home thread) = some x) : t.IsOpen (f.home thread) :=
  FileTree.isOpen_of_isFolder hx (hu.reach thread x hthread hx).1

theorem Usable.seek?_thread (hu : f.Usable t) (hf : f.Settled) (hthread : thread ≠ "") :
    seek? t (f.threadPath thread) = (t.find? (f.home thread)).map fun x => (f.home thread, x) := by
  cases hfound : t.find? (f.home thread) with
  | none =>
    rw [Option.map_none, Option.eq_none_iff_forall_ne_some]
    rintro ⟨p, x⟩ hseek
    obtain ⟨-, rfl, hx⟩ := (FolderStore.seek?_thread hf).1 hseek
    rw [hfound] at hx
    cases hx
  | some x =>
    exact (FolderStore.seek?_thread hf).2 ⟨(hu.reach thread x hthread hfound).2, rfl, hfound⟩

theorem Usable.seek?_file (hu : f.Usable t) (hf : f.Settled) (hthread : thread ≠ "") (step : Nat) :
    seek? t (f.filePath thread step) =
      if FileTree.isPath (f.filePath thread step) = true then
        (f.shelf t thread (f.fileName step)).map fun x => (f.home thread ++ [f.fileName step], x)
      else none := by
  rw [shelf_named hthread]
  by_cases hpath : FileTree.isPath (f.filePath thread step) = true
  · rw [if_pos hpath]
    cases hfound : t.find? (f.home thread ++ [f.fileName step]) with
    | none =>
      rw [Option.map_none, Option.eq_none_iff_forall_ne_some]
      rintro ⟨p, x⟩ hseek
      obtain ⟨-, rfl, hx⟩ := (FolderStore.seek?_file hf).1 hseek
      rw [hfound] at hx
      cases hx
    | some x =>
      obtain ⟨entries, hhome⟩ := FileTree.isOpen_of_find?_snoc hfound
      have hopens := (hu.reach thread _ hthread hhome).2.2
      exact (FolderStore.seek?_file hf).2 ⟨⟨hpath, hopens⟩, rfl, hfound⟩
  · rw [if_neg hpath, Option.eq_none_iff_forall_ne_some]
    rintro ⟨p, x⟩ hseek
    exact hpath ((FolderStore.seek?_file hf).1 hseek).1.1

/-- The steps of a thread are the numbers that stand on its shelf. -/
theorem Usable.history_spec (hu : f.Usable t) (hf : f.Settled) (hthread : thread ≠ "") :
    ∃ steps, f.history t thread = .ok steps ∧ steps.Pairwise (· < ·) ∧
      ∀ n, n ∈ steps ↔ ∃ name x, f.shelf t thread name = some x ∧ stepOf? name = some n := by
  simp only [shelf_named hthread]
  unfold FolderStore.history
  rw [hu.seek?_thread hf hthread]
  cases hfound : t.find? (f.home thread) with
  | none =>
    refine ⟨[], rfl, List.Pairwise.nil, fun n => ?_⟩
    simp only [FileTree.find?_append, hfound, Option.bind_none, List.not_mem_nil, false_iff]
    rintro ⟨_, _, hx, _⟩
    cases hx
  | some x =>
    obtain ⟨entries, hhome⟩ := hu.isOpen hthread hfound
    obtain rfl : x = .folder entries := Option.some.inj (hfound.symm.trans hhome)
    obtain ⟨hpair, hmem⟩ := stepsIn_spec entries
    refine ⟨stepsIn entries, rfl, hpair, fun n => (hmem n).trans ?_⟩
    constructor
    · rintro ⟨⟨name, x⟩, he, hn⟩
      obtain ⟨y, hy⟩ := (mem_entries_iff hfound name).1 ⟨x, he⟩
      exact ⟨name, y, hy, hn⟩
    · rintro ⟨name, y, hy, hn⟩
      obtain ⟨x, he⟩ := (mem_entries_iff hfound name).2 ⟨y, hy⟩
      exact ⟨(name, x), he, hn⟩

section Reading

variable (hf : f.Settled) (hu : f.Usable t) (hu' : f.Usable t') (hthread : thread ≠ "")
  (hsame : f.shelf t thread = f.shelf t' thread)

include hf hu hu' hthread hsame

/-- Equal shelves have the same steps. -/
theorem history_congr : f.history t thread = f.history t' thread := by
  obtain ⟨steps, hsteps, hpair, hmem⟩ := hu.history_spec hf hthread
  obtain ⟨steps', hsteps', hpair', hmem'⟩ := hu'.history_spec hf hthread
  rw [hsteps, hsteps', hpair.eq_of_mem_iff hpair' fun n => ?_]
  rw [hmem, hmem', hsame]

theorem loadStep_congr (step : Nat) : f.loadStep t thread step = f.loadStep t' thread step := by
  unfold FolderStore.loadStep
  rw [hu.seek?_file hf hthread, hu'.seek?_file hf hthread, hsame]

/-- Equal shelves have the same latest checkpoint. -/
theorem load_congr : f.load t thread = f.load t' thread := by
  unfold FolderStore.load
  rw [history_congr hf hu hu' hthread hsame]
  refine congrArg (f.history t' thread >>= ·) (funext fun steps => ?_)
  cases steps.getLast? with
  | none => rfl
  | some step => exact loadStep_congr hf hu hu' hthread hsame step

end Reading

/-- Where nothing is on the shelf of a thread, it has no checkpoint. -/
theorem Usable.load_eq_none (hu : f.Usable t) (hf : f.Settled) (hthread : thread ≠ "")
    (hempty : ∀ name, f.shelf t thread name = none) : f.load t thread = .ok none := by
  obtain ⟨steps, hsteps, -, hmem⟩ := hu.history_spec hf hthread
  obtain rfl : steps = [] := by
    refine List.eq_nil_iff_forall_not_mem.2 fun n hn => ?_
    obtain ⟨name, x, hx, -⟩ := (hmem n).1 hn
    rw [hempty name] at hx
    cases hx
  unfold FolderStore.load
  rw [hsteps]
  rfl

/-! ## Changing a shelf -/

/-- The entries of folders of threads are apart, unless they are the same. -/
theorem inside_apart {name' : String} (hthread : thread ≠ "") (hother : other ≠ "")
    (hne : thread ≠ other ∨ name ≠ name') :
    ¬ f.home thread ++ [name] <+: f.home other ++ [name'] := by
  intro hpart
  rw [home_named hthread, home_named hother, List.append_assoc, List.append_assoc,
    List.prefix_append_right_inj] at hpart
  simp only [List.cons_append, List.nil_append, List.cons_prefix_cons, List.nil_prefix,
    and_true] at hpart
  rcases hne with hne | hne
  · exact hne (Text.Percent.encode_inj.1 hpart.1)
  · exact hne hpart.2

/-- An entry of a thread's folder is on the way to no folder of a thread. -/
theorem inside_not_prefix_home (hthread : thread ≠ "") :
    ¬ f.home thread ++ [name] <+: f.home other := by
  intro hpart
  have hlength := hpart.length_le
  rw [home_named hthread, home] at hlength
  split at hlength
  · simp only [List.length_append, List.length_singleton, List.length_nil] at hlength
    omega
  · simp at hlength

/-- The folder of a thread is apart from the entries of the others. -/
theorem home_not_prefix_inside (hthread : thread ≠ "") (hother : other ≠ "")
    (hne : thread ≠ other) : ¬ f.home thread <+: f.home other ++ [name] := by
  intro hpart
  rcases List.prefix_concat_iff.1 hpart with heq | hpart
  · exact inside_not_prefix_home hother ⟨[], by rw [← heq, List.append_nil]⟩
  · exact home_apart_home hthread hne hpart

/-- **A file that is put into a thread's folder, or removed from it, changes the shelf of this
thread only.** -/
theorem Usable.replaced (hu : f.Usable t) (hf : f.Settled) (hthread : thread ≠ "")
    {new : Option FileTree} (hr : FileTree.Replaces (f.home thread ++ [name]) new t t')
    (hopens : f.Opens t) (hopen : t.IsOpen (f.home thread))
    (hnew : ∀ x, new = some x → ∃ content, x = .file content) :
    (f.Shifts t thread (fun shelf => Function.update shelf name new) t' ∧ f.Opens t') ∧
      t'.IsOpen (f.home thread) := by
  have hopens' := hopens.of_replaces hf hr
    ((f.base_prefix_home thread).trans (List.prefix_append _ _)) (f.inside_ne_base thread name)
  have hopen' : t'.IsOpen (f.home thread) := by
    apply hr.above _ (List.prefix_append _ _) ?_ hopen
    intro heq
    simpa using congrArg List.length heq
  have hother {other : String} (hother : other ≠ "") (name' : String)
      (hne : thread ≠ other ∨ name ≠ name') :
      t'.find? (f.home other ++ [name']) = t.find? (f.home other ++ [name']) :=
    hr.apart _ (inside_apart hthread hother hne)
      (inside_apart hother hthread (hne.imp Ne.symm Ne.symm))
  refine ⟨⟨⟨⟨?_, ?_, hopens'.usable_way, ?_, ?_⟩, ?_, ?_⟩, hopens'⟩, hopen'⟩
  · refine hr.sound hu.sound fun x hx => ?_
    obtain ⟨content, rfl⟩ := hnew x hx
    exact FileTree.sound_file content
  · exact hr.above [] List.nil_prefix (by simp) hu.root
  · intro other x hothers hx
    by_cases hsame : other = thread
    · subst hsame
      refine ⟨hopen'.passable x hx, ?_, hopens'⟩
      obtain ⟨entries, hhome⟩ := hopen
      exact (hu.reach other _ hothers hhome).2.1
    · rw [hr.apart _ (inside_not_prefix_home hthread)
        (home_not_prefix_inside hothers hthread hsame)] at hx
      obtain ⟨hfolder, hpath, -⟩ := hu.reach other x hothers hx
      exact ⟨hfolder, hpath, hopens'⟩
  · intro other name' step x hothers hname hx
    by_cases hsame : thread = other ∧ name = name'
    · obtain ⟨rfl, rfl⟩ := hsame
      rw [hr.here] at hx
      obtain ⟨content, rfl⟩ := hnew x hx
      rfl
    · rw [hother hothers name' (not_and_or.1 hsame)] at hx
      exact hu.files other name' step x hothers hname hx
  · funext name'
    rw [shelf_named hthread]
    by_cases hsame : name' = name
    · rw [hsame, Function.update_self, hr.here]
    · rw [Function.update_of_ne hsame, shelf_named hthread,
        hother hthread name' (.inr (Ne.symm hsame))]
  · exact fun other hne => shelf_eq fun hothers name' => hother hothers name' (.inl hne.symm)

/-! ## Forgetting -/

/-- **Forgetting a named thread does not fail, and empties its shelf.** -/
theorem Usable.delete (hu : f.Usable t) (hf : f.Settled) (hthread : thread ≠ "") :
    ∃ t', f.delete t thread = (.ok (), t') ∧ f.Shifts t thread (fun _ _ => none) t' := by
  unfold FolderStore.delete
  rw [hu.seek?_thread hf hthread]
  cases hfound : t.find? (f.home thread) with
  | none =>
    refine ⟨t, rfl, hu, ?_, fun _ _ => rfl⟩
    funext name
    rw [shelf_named hthread, FileTree.find?_append, hfound]
    rfl
  | some x =>
    obtain ⟨entries, hhome⟩ := hu.isOpen hthread hfound
    obtain rfl : x = .folder entries := Option.some.inj (hfound.symm.trans hhome)
    obtain ⟨-, -, hopens⟩ := hu.reach thread _ hthread hfound
    have hr := FileTree.replaces_drop hu.sound (p := f.home thread) (by simp [home_named hthread])
    have hopens' := hopens.of_replaces hf hr (f.base_prefix_home thread) (home_ne_base hthread)
    have hgone (name : String) :
        (t.drop (f.home thread)).find? (f.home thread ++ [name]) = none := by
      rw [FileTree.find?_append, hr.here]
      rfl
    have hother {other : String} (hother : other ≠ "") (hne : other ≠ thread) (name : String) :
        (t.drop (f.home thread)).find? (f.home other ++ [name]) =
          t.find? (f.home other ++ [name]) :=
      hr.apart _ (home_not_prefix_inside hthread hother hne.symm) (inside_not_prefix_home hother)
    refine ⟨_, rfl, ⟨hr.sound hu.sound (by simp), ?_, hopens'.usable_way, ?_, ?_⟩, ?_, ?_⟩
    · exact hr.above [] List.nil_prefix (by simp [home_named hthread]) hu.root
    · intro other x hothers hx
      by_cases hsame : other = thread
      · rw [hsame, hr.here] at hx
        cases hx
      · rw [hr.apart _ (home_apart_home hthread (Ne.symm hsame))
          (home_apart_home hothers hsame)] at hx
        obtain ⟨hfolder, hpath, -⟩ := hu.reach other x hothers hx
        exact ⟨hfolder, hpath, hopens'⟩
    · intro other name step x hothers hname hx
      by_cases hsame : other = thread
      · rw [hsame, hgone] at hx
        cases hx
      · rw [hother hothers hsame] at hx
        exact hu.files other name step x hothers hname hx
    · funext name
      rw [shelf_named hthread, hgone]
    · exact fun other hne => shelf_eq fun hothers name => hother hothers hne name

/-- What forgetting a step does to a shelf. -/
def without (f : FolderStore) (thread : String) (shelf : String → Option FileTree) (step : Nat) :
    String → Option FileTree :=
  if FileTree.isPath (f.filePath thread step) = true then
    Function.update shelf (f.fileName step) none
  else shelf

theorem Usable.deleteStep (hu : f.Usable t) (hf : f.Settled) (hthread : thread ≠ "") (step : Nat) :
    ∃ t', f.deleteStep t thread step = (.ok (), t') ∧
      f.Shifts t thread (fun shelf => f.without thread shelf step) t' := by
  unfold FolderStore.deleteStep without
  rw [hu.seek?_file hf hthread]
  by_cases hpath : FileTree.isPath (f.filePath thread step) = true
  · simp only [if_pos hpath]
    cases hfound : f.shelf t thread (f.fileName step) with
    | none =>
      refine ⟨t, rfl, hu, ?_, fun _ _ => rfl⟩
      rw [← hfound, Function.update_eq_self]
    | some x =>
      rw [shelf_named hthread] at hfound
      have hfile := hu.files thread _ step x hthread (.inl rfl) hfound
      cases x with
      | folder entries => cases hfile
      | file content =>
        have hopen := FileTree.isOpen_of_find?_snoc hfound
        obtain ⟨entries, hhome⟩ := hopen
        have hopens := (hu.reach thread _ hthread hhome).2.2
        have hr := FileTree.replaces_drop hu.sound
          (p := f.home thread ++ [f.fileName step]) (by simp)
        exact ⟨_, rfl, (hu.replaced hf hthread hr hopens ⟨entries, hhome⟩ (by simp)).1.1⟩
  · simp only [if_neg hpath]
    exact ⟨t, rfl, .refl hu⟩

/-- Forgetting steps one after another. By induction on the steps. -/
theorem Usable.deleteSteps (hu : f.Usable t) (hf : f.Settled) (hthread : thread ≠ "")
    (steps : List Nat) :
    ∃ t', f.deleteSteps thread t steps = (.ok (), t') ∧
      f.Shifts t thread (fun shelf => steps.foldl (f.without thread) shelf) t' := by
  induction steps generalizing t with
  | nil => exact ⟨t, rfl, .refl hu⟩
  | cons step rest ih =>
    obtain ⟨u, hstep, hfirst⟩ := hu.deleteStep hf hthread step
    obtain ⟨t', hrest, hlater⟩ := ih hfirst.usable
    refine ⟨t', ?_, hfirst.trans hlater⟩
    unfold FolderStore.deleteSteps
    rw [hstep]
    exact hrest

/-- **Pruning a named thread does not fail**, and takes the files of the first steps from its
shelf. -/
theorem Usable.prune (hu : f.Usable t) (hf : f.Settled) (hthread : thread ≠ "") (keep : Nat) :
    ∃ steps t', f.history t thread = .ok steps ∧
      f.prune t thread keep = (.ok (steps.take (steps.length - keep)).length, t') ∧
      f.Shifts t thread
        (fun shelf => (steps.take (steps.length - keep)).foldl (f.without thread) shelf) t' := by
  obtain ⟨steps, hsteps, -, -⟩ := hu.history_spec hf hthread
  obtain ⟨t', hgone, hshifts⟩ := hu.deleteSteps hf hthread (steps.take (steps.length - keep))
  refine ⟨steps, t', hsteps, ?_, hshifts⟩
  unfold FolderStore.prune
  rw [hsteps]
  dsimp only
  rw [hgone]
  rfl

/-! ## Saving -/

/-- Whether a name is short enough for an entry. -/
def IsShort (name : String) : Prop := name.utf8ByteSize ≤ FileTree.maxName

instance (name : String) : Decidable (IsShort name) := Nat.decLe _ _

/-- What comes of saving a checkpoint, and what it does to the shelf. -/
def saving (f : FolderStore) (c : Checkpoint) :
    Except StoreError Unit × ((String → Option FileTree) → String → Option FileTree) :=
  let written := some (FileTree.file (f.contentOf (Json.pretty c.toValue)))
  if ¬ (FileTree.isPath (f.threadPath c.thread) = true ∧
      ∀ name ∈ FileTree.namesOf (f.threadPath c.thread), IsShort name) then
    (.error .createDirectory, id)
  else if ¬ (FileTree.isPath (f.draftPath c.thread c.step) = true ∧
      IsShort (draftName c.step)) then
    (.error .createFile, id)
  else if ¬ (FileTree.isPath (f.filePath c.thread c.step) = true ∧
      IsShort (f.fileName c.step)) then
    (.error .renameFile, fun shelf => Function.update shelf (draftName c.step) written)
  else
    (.ok (), fun shelf =>
      Function.update (Function.update shelf (draftName c.step) none) (f.fileName c.step) written)

/-- Whether the folder of a thread can be created depends on the names on its path. -/
theorem Usable.isSome_makeFolders?_iff (hu : f.Usable t) (hf : f.Settled) (hthread : thread ≠ "") :
    (t.makeFolders? (f.threadPath thread)).isSome = true ↔
      FileTree.isPath (f.threadPath thread) = true ∧
        ∀ name ∈ FileTree.namesOf (f.threadPath thread), IsShort name := by
  have hstops : ∀ q ∈ FileTree.stops [] (FileTree.namesOf (f.threadPath thread)),
      t.Passable q := by
    rw [threadPath, FileTree.namesOf_join hf.path_ne (slash_not_mem_encode thread)]
    intro q hq
    rcases (mem_stops_thread hf).1 hq with hq | rfl
    · exact hu.way q hq
    · exact fun x hx => (hu.reach thread x hthread hx).1
  have hmake := FileTree.isSome_makeAlong?_iff hu.root (by simp) hstops
  unfold FileTree.makeFolders? IsShort
  split
  · next hpath => rw [hmake, and_iff_right hpath]
  · next hpath => simp [hpath]

/-- Creating the folder of a thread changes no shelf. -/
theorem Furnishes.shifts (h : f.Furnishes t thread t') (hu : f.Usable t) :
    f.Shifts t thread id t' ∧ f.Opens t' ∧ t'.IsOpen (f.home thread) := by
  have hsame {other : String} (hother : other ≠ "") (name : String) :
      t'.find? (f.home other ++ [name]) = t.find? (f.home other ++ [name]) := by
    apply h.same _ ((f.base_prefix_home other).trans (List.prefix_append _ _))
      (f.inside_ne_base other name)
    intro _ heq
    exact inside_not_prefix_home hother ⟨[], by rw [heq, List.append_nil]⟩
  refine ⟨⟨⟨h.sound, h.root, h.opens.usable_way, ?_, ?_⟩, ?_, ?_⟩, h.opens, h.isOpen⟩
  · intro other x hother hx
    by_cases hthread : other = thread
    · rw [hthread] at hx ⊢
      exact ⟨h.isOpen.passable x hx, h.path, h.opens⟩
    · rw [h.find?_home hother hthread] at hx
      obtain ⟨hfolder, hpath, -⟩ := hu.reach other x hother hx
      exact ⟨hfolder, hpath, h.opens⟩
  · intro other name step x hother hname hx
    rw [hsame hother] at hx
    exact hu.files other name step x hother hname hx
  · exact shelf_eq hsame
  · exact fun other _ => shelf_eq hsame

/-- A file can be put into the folder of a thread, unless its name is too long. -/
theorem Usable.put? (hu : f.Usable t) (hf : f.Settled) (hthread : thread ≠ "")
    (hopens : f.Opens t) (hopen : t.IsOpen (f.home thread)) (content : Content) (name : String) :
    (¬ IsShort name ∧ t.put? (f.home thread ++ [name]) (.file content) = none) ∨
      IsShort name ∧ ∃ u, t.put? (f.home thread ++ [name]) (.file content) = some u ∧
        (f.Shifts t thread (fun shelf => Function.update shelf name (some (.file content))) u ∧
          f.Opens u) ∧ u.IsOpen (f.home thread) := by
  have hput := FileTree.isSome_put?_iff hopen name (.file content)
  cases hput? : t.put? (f.home thread ++ [name]) (.file content) with
  | none =>
    rw [hput?] at hput
    exact .inl ⟨fun hshort => (by cases hput.2 hshort), rfl⟩
  | some u =>
    rw [hput?] at hput
    refine .inr ⟨hput.1 rfl, u, rfl, ?_⟩
    exact hu.replaced hf hthread (FileTree.replaces_put? hput?) hopens hopen (by simp)

/-- **Whether a checkpoint of a named thread can be saved depends on its names only**, and so does
what this changes. -/
theorem Usable.save (hu : f.Usable t) (hf : f.Settled) {c : Checkpoint} (hthread : c.thread ≠ "") :
    ∃ t', f.save t c = ((f.saving c).1, t') ∧ f.Shifts t c.thread (f.saving c).2 t' := by
  have hmake := hu.isSome_makeFolders?_iff hf hthread
  unfold FolderStore.save saving
  dsimp only
  cases hmade : t.makeFolders? (f.threadPath c.thread) with
  | none =>
    rw [hmade] at hmake
    rw [if_pos fun h => by cases hmake.2 h]
    exact ⟨t, rfl, .refl hu⟩
  | some u =>
    rw [hmade] at hmake
    have hfurnished := furnishes_makeFolders hf hu.sound hu.root hmade
    obtain ⟨hfirst, hopens, hopen⟩ := hfurnished.shifts hu
    have hnofolder {name : String} (hname : name = f.fileName c.step ∨ name = draftName c.step) :
        (u.find? (f.home c.thread ++ [name])).any FileTree.isFolder = false := by
      cases hfound : u.find? (f.home c.thread ++ [name]) with
      | none => rfl
      | some x => exact hfirst.usable.files c.thread name c.step x hthread hname hfound
    rw [if_neg (not_not_intro (hmake.1 rfl))]
    simp only [hfurnished.locate? hf, Option.getD_some, hnofolder (.inr rfl), hnofolder (.inl rfl)]
    by_cases hdraft : FileTree.isPath (f.draftPath c.thread c.step) = true
    · rw [if_neg (by simp [hdraft])]
      rcases hfirst.usable.put? hf hthread hopens hopen (f.contentOf (Json.pretty c.toValue))
          (draftName c.step) with ⟨hlong, hnone⟩ | ⟨hshort, w, hput, ⟨hwritten, hopens'⟩, hopen'⟩
      · rw [hnone, if_pos fun h => hlong h.2]
        exact ⟨u, rfl, hfirst⟩
      · rw [hput, if_neg (not_not_intro ⟨hdraft, hshort⟩)]
        dsimp only
        by_cases hfile : FileTree.isPath (f.filePath c.thread c.step) = true
        · rw [if_neg (by simp [hfile])]
          have hdrop := FileTree.replaces_drop hwritten.usable.sound
            (p := f.home c.thread ++ [draftName c.step]) (by simp)
          obtain ⟨⟨hgone, hopens''⟩, hopen''⟩ :=
            hwritten.usable.replaced hf hthread hdrop hopens' hopen' (by simp)
          rcases hgone.usable.put? hf hthread hopens'' hopen'' (f.contentOf (Json.pretty c.toValue))
              (f.fileName c.step) with ⟨hlong, hnone⟩ | ⟨hshort, v, hput, ⟨hplaced, -⟩, -⟩
          · rw [hnone, if_pos fun h => hlong h.2]
            exact ⟨w, rfl, hfirst.trans hwritten⟩
          · rw [hput, if_neg (not_not_intro ⟨hfile, hshort⟩)]
            have hall := ((hfirst.trans hwritten).trans hgone).trans hplaced
            simp only [id, Function.update_idem] at hall
            exact ⟨v, rfl, hall⟩
        · rw [if_pos (by simp [hfile]), if_pos fun h => hfile h.1]
          exact ⟨w, rfl, hfirst.trans hwritten⟩
    · rw [if_pos (by simp [hdraft]), if_pos fun h => hdraft h.1]
      exact ⟨u, rfl, hfirst⟩

end WorkflowGraph.FolderStore
