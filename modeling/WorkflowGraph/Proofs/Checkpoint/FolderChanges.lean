import WorkflowGraph.Proofs.Checkpoint.Folder

/-!
# What is done to a folder of checkpoints

An operation on one thread that succeeds leaves a tidy tree, changes the history of this thread as
the operation says, and leaves what all other threads hold (`FolderStore.Alters`). This is so for
saving (`FolderStore.save_alters`), which puts a file into the folder of the thread and makes this
folder if need be (`FolderStore.save_places`), for forgetting a step or several
(`FolderStore.deleteStep_alters`, `FolderStore.deleteSteps_alters`), and for forgetting a thread that
has a name (`FolderStore.delete_alters`). To forget the thread without a name is to remove the store's
own folder, and whatever any thread holds is gone (`FolderStore.delete_unnamed`).
-/

set_option autoImplicit false

namespace WorkflowGraph

namespace FileTree

/-- Where nothing or a file has been put into a folder, what is found anywhere was put there, is a
folder on the way to it, or has been there before. -/
theorem Replaces.found {t t' : FileTree} {p q : List String} {name : String}
    {new : Option FileTree} {x : FileTree} (h : Replaces (p ++ [name]) new t t')
    (hnew : ∀ y, new = some y → ∃ content, y = .file content) (hopen : t.IsOpen p)
    (hx : t'.find? q = some x) :
    (q = p ++ [name] ∧ new = some x) ∨
      (x.isFolder = true ∧ ∃ y, t.find? q = some y) ∨ t.find? q = some x := by
  by_cases hpq : p ++ [name] <+: q
  · obtain ⟨rest, rfl⟩ := hpq
    obtain ⟨y, hy, hrest⟩ := exists_of_find?_append hx
    rw [h.here] at hy
    obtain ⟨content, rfl⟩ := hnew y hy
    cases rest with
    | nil =>
      cases hrest
      exact .inl ⟨List.append_nil _, hy⟩
    | cons next more => cases hrest
  · by_cases hqp : q <+: p ++ [name]
    · have hne : q ≠ p ++ [name] := by
        rintro rfl
        exact hpq (List.prefix_refl _)
      have hq : q <+: p := by
        rcases List.prefix_concat_iff.1 hqp with heq | hq
        · exact absurd heq hne
        · exact hq
      obtain ⟨entries, hbefore⟩ := hopen.of_prefix hq
      obtain ⟨entries', hafter⟩ := h.above q hqp hne ⟨entries, hbefore⟩
      rw [hafter] at hx
      cases hx
      exact .inr (.inl ⟨rfl, _, hbefore⟩)
    · rw [h.apart q hpq hqp] at hx
      exact .inr (.inr hx)

end FileTree

namespace FolderStore

variable {f : FolderStore} {t t' : FileTree} {thread other name name' : String}

/-! ## Places that are apart -/

theorem base_prefix_home (f : FolderStore) (thread : String) : f.base <+: f.home thread :=
  List.prefix_append _ _

theorem home_ne_base (h : thread ≠ "") : f.home thread ≠ f.base := by
  rw [home_named h]
  simp

theorem inside_ne_base (f : FolderStore) (thread name : String) :
    f.home thread ++ [name] ≠ f.base := by
  intro heq
  have := congrArg List.length heq
  simp [home] at this

/-- Files of different threads, and files of different names, are apart from each other. -/
theorem file_apart (hdot : '.' ∈ name.toList) (hne : thread ≠ other ∨ name ≠ name') :
    ¬ f.home thread ++ [name] <+: f.home other ++ [name'] := by
  unfold home
  rw [List.append_assoc, List.append_assoc, List.prefix_append_right_inj]
  intro hpart
  by_cases hthread : thread = ""
  · by_cases hother : other = ""
    · rw [if_pos hthread, if_pos hother] at hpart
      simp only [List.nil_append, List.cons_prefix_cons, List.nil_prefix, and_true] at hpart
      rcases hne with hne | hne
      · exact hne (hthread.trans hother.symm)
      · exact hne hpart
    · rw [if_pos hthread, if_neg hother] at hpart
      simp only [List.nil_append, List.cons_append, List.cons_prefix_cons] at hpart
      exact encode_ne_of_dot hdot other hpart.1.symm
  · by_cases hother : other = ""
    · rw [if_neg hthread, if_pos hother] at hpart
      have := hpart.length_le
      simp at this
    · rw [if_neg hthread, if_neg hother] at hpart
      simp only [List.nil_append, List.cons_append, List.cons_prefix_cons, List.nil_prefix,
        and_true] at hpart
      rcases hne with hne | hne
      · exact hne (Text.Percent.encode_inj.1 hpart.1)
      · exact hne hpart.2

/-- The folder of a named thread is apart from the files of other threads. -/
theorem home_apart (hother : other ≠ "") (hdot : '.' ∈ name.toList) (hne : other ≠ thread) :
    ¬ f.home other <+: f.home thread ++ [name] := by
  rw [home_named hother, home, List.append_assoc, List.prefix_append_right_inj]
  intro hpart
  by_cases hthread : thread = ""
  · rw [if_pos hthread] at hpart
    simp only [List.nil_append, List.cons_prefix_cons, List.nil_prefix, and_true] at hpart
    exact encode_ne_of_dot hdot other hpart
  · rw [if_neg hthread] at hpart
    simp only [List.cons_append, List.cons_prefix_cons, List.nil_prefix, and_true] at hpart
    exact hne (Text.Percent.encode_inj.1 hpart)

/-- A file is on the way to no folder of a thread. -/
theorem file_not_prefix_home (hdot : '.' ∈ name.toList) :
    ¬ f.home thread ++ [name] <+: f.home other := by
  unfold home
  rw [List.append_assoc, List.prefix_append_right_inj]
  intro hpart
  by_cases hother : other = ""
  · rw [if_pos hother] at hpart
    have := hpart.length_le
    simp at this
  · rw [if_neg hother] at hpart
    by_cases hthread : thread = ""
    · rw [if_pos hthread] at hpart
      simp only [List.nil_append, List.cons_prefix_cons, List.nil_prefix, and_true] at hpart
      exact encode_ne_of_dot hdot other hpart.symm
    · rw [if_neg hthread] at hpart
      have := hpart.length_le
      simp at this

theorem home_ne_file (hdot : '.' ∈ name.toList) : f.home other ≠ f.home thread ++ [name] := by
  intro heq
  have hpart : f.home thread ++ [name] <+: f.home other := ⟨[], by rw [heq, List.append_nil]⟩
  exact file_not_prefix_home hdot hpart

/-- Inside the store's folder nothing is on the way to that of a thread, but this itself. -/
theorem eq_home_of_prefix {q : List String} (hbase : f.base <+: q) (hne : q ≠ f.base)
    (hq : q <+: f.home thread) : thread ≠ "" ∧ q = f.home thread := by
  obtain ⟨rest, rfl⟩ := hbase
  by_cases h : thread = ""
  · rw [h, home_unnamed] at hq
    exact absurd (hq.eq_of_length_le (List.prefix_append _ _).length_le) hne
  · rw [home_named h, List.prefix_append_right_inj] at hq
    rcases List.prefix_cons_iff.1 hq with rfl | ⟨more, rfl, hmore⟩
    · exact absurd (List.append_nil _) hne
    · rw [List.prefix_nil.1 hmore, home_named h]
      exact ⟨h, rfl⟩

theorem home_apart_home (hother : other ≠ "") (hne : other ≠ thread) :
    ¬ f.home other <+: f.home thread := by
  intro hpart
  obtain ⟨hthread, heq⟩ :=
    eq_home_of_prefix (f.base_prefix_home other) (home_ne_base hother) hpart
  rw [home_named hother, home_named hthread] at heq
  exact hne (Text.Percent.encode_inj.1 (List.singleton_inj.1 (List.append_cancel_left heq)))

/-- The way to the store's folder stays open when something below it changes. -/
theorem Opens.of_replaces (hf : f.Settled) (h : f.Opens t) {p : List String}
    {new : Option FileTree} (hr : FileTree.Replaces p new t t') (hbase : f.base <+: p)
    (hne : p ≠ f.base) : f.Opens t' := by
  intro q hq
  have hpq : ¬ p <+: q := by
    intro hpq
    have hqbase := hf.outside q hq (hbase.trans hpq)
    rw [hqbase] at hpq
    exact hne (hpq.eq_of_length_le hbase.length_le)
  by_cases hqp : q <+: p
  · refine hr.above q hqp ?_ (h q hq)
    rintro rfl
    exact hpq (List.prefix_refl _)
  · obtain ⟨entries, hopen⟩ := h q hq
    exact ⟨entries, (hr.apart q hpq hqp).trans hopen⟩

/-! ## What an operation leaves -/

/-- What an operation on one thread leaves: a tidy tree, in which this thread's history is changed,
while all other threads hold what they held, with the same folders. -/
structure Alters (f : FolderStore) (t : FileTree) (thread : String) (change : History → History)
    (t' : FileTree) : Prop where
  tidy : f.Tidy t'
  here : ∀ h, f.Holds t thread h → f.Holds t' thread (change h)
  elsewhere : ∀ other, other ≠ thread → ∀ h, f.Holds t other h → f.Holds t' other h
  stands : ∀ other, other ≠ "" → other ≠ thread → t'.has (f.home other) = t.has (f.home other)

theorem Alters.trans {u : FileTree} {change change' : History → History}
    (h : f.Alters t thread change u) (h' : f.Alters u thread change' t') :
    f.Alters t thread (fun held => change' (change held)) t' where
  tidy := h'.tidy
  here held hh := h'.here _ (h.here held hh)
  elsewhere other hne held hh := h'.elsewhere other hne held (h.elsewhere other hne held hh)
  stands other hother hne := (h'.stands other hother hne).trans (h.stands other hother hne)

/-- A thread holds a history again where its files are the same. -/
theorem Holds.of_same {h : History} (hh : f.Holds t thread h)
    (hsame : ∀ step, t'.find? (f.home thread ++ [f.fileName step]) =
      t.find? (f.home thread ++ [f.fileName step])) : f.Holds t' thread h :=
  ⟨hh.sound, fun step => (hsame step).trans (hh.file step), hh.fits⟩

/-- Whether a new file at a place leaves a tree tidy: it takes no thread's place, and is the file of a
step where it comes to stand in a thread's folder. -/
structure Admits (f : FolderStore) (p : List String) : Prop where
  home_ne : ∀ thread, f.home thread ≠ p
  reach : ∀ name, f.base ++ [name] = p → FileTree.isPath (f.threadPath "" ++ name) = true
  names : ∀ thread name, f.home thread ++ [name] = p →
    ∃ step, step < UInt64.size ∧ name = f.fileName step

/-- The place of a step's file admits it, if the file can be reached. -/
theorem admits_file (hf : f.Settled) {step : Nat} (hstep : step < UInt64.size)
    (hpath : FileTree.isPath (f.filePath thread step) = true) :
    f.Admits (f.home thread ++ [f.fileName step]) where
  home_ne _ := home_ne_file (f.dot_mem_fileName step)
  reach name heq := by
    -- Only the thread without a name has its files there.
    by_cases hthread : thread = ""
    · rw [hthread, home_unnamed] at heq
      rw [List.singleton_inj.1 (List.append_cancel_left heq), ← filePath_unnamed hf, ← hthread]
      exact hpath
    · rw [home_named hthread] at heq
      have := congrArg List.length heq
      simp at this
  names other name heq := by
    obtain ⟨-, hname⟩ := List.append_inj' heq rfl
    exact ⟨step, hstep, List.singleton_inj.1 hname⟩

/-- Where a file is put into the store's folder or something is removed from it, the tree stays
tidy. -/
theorem Tidy.of_replaces (hf : f.Settled) (ht : f.Tidy t) {p : List String}
    {new : Option FileTree} (hr : FileTree.Replaces (p ++ [name]) new t t') (hbase : f.base <+: p)
    (hopens : f.Opens t) (hopen : t.IsOpen p)
    (hnew : ∀ x, new = some x → (∃ content, x = .file content) ∧ f.Admits (p ++ [name])) :
    f.Tidy t' := by
  have hfile : ∀ x, new = some x → ∃ content, x = .file content := fun x hx => (hnew x hx).1
  have hopens' : f.Opens t' := by
    apply hopens.of_replaces hf hr (hbase.trans (List.prefix_append _ _))
    intro heq
    have := congrArg List.length heq
    have := hbase.length_le
    simp at *
    omega
  refine ⟨hr.sound ht.sound ?_, ?_, ?_, ?_, ?_⟩
  · intro x hx
    obtain ⟨content, rfl⟩ := hfile x hx
    exact FileTree.sound_file content
  · exact hr.above [] List.nil_prefix (by simp) ht.root
  · intro other x hx
    rcases hr.found hfile hopen hx with ⟨heq, hx⟩ | ⟨hfolder, -⟩ | hx
    · exact absurd heq ((hnew x hx).2.home_ne other)
    · exact hfolder
    · exact ht.folder other x hx
  · intro other x hx
    refine ⟨?_, hopens'⟩
    rcases hr.found hfile hopen hx with ⟨heq, hx⟩ | ⟨-, y, hy⟩ | hx
    · exact (hnew x hx).2.reach other heq
    · exact (ht.reach other y hy).1
    · exact (ht.reach other x hx).1
  · intro other name' x hx
    rcases hr.found hfile hopen hx with ⟨heq, hx⟩ | ⟨-, y, hy⟩ | hx
    · exact .inl ((hnew x hx).2.names other name' heq)
    · exact ht.names other name' y hy
    · exact ht.names other name' x hx

/-- Where a file is put into a thread's folder or removed from it, the other threads hold what they
held, and so does this thread if the file is not that of a step. -/
theorem Holds.of_replaces {new : Option FileTree} {h : History} (hh : f.Holds t other h)
    (hr : FileTree.Replaces (f.home thread ++ [name]) new t t') (hdot : '.' ∈ name.toList)
    (hne : other ≠ thread ∨ ∀ step, f.fileName step ≠ name) : f.Holds t' other h :=
  hh.of_same fun step => hr.apart _
    (file_apart hdot (hne.imp Ne.symm fun hname => (hname step).symm))
    (file_apart (f.dot_mem_fileName step) (hne.imp id fun hname => hname step))

/-- The files of other steps stay as they are. -/
theorem find?_fileName_of_ne {new : Option FileTree} {step n : Nat}
    (hr : FileTree.Replaces (f.home thread ++ [f.fileName step]) new t t') (hn : step ≠ n) :
    t'.find? (f.home thread ++ [f.fileName n]) = t.find? (f.home thread ++ [f.fileName n]) := by
  have hne : f.fileName step ≠ f.fileName n := fun heq => hn (f.fileName_inj.1 heq)
  exact hr.apart _ (file_apart (f.dot_mem_fileName step) (.inr hne))
    (file_apart (f.dot_mem_fileName n) (.inr hne.symm))

theorem has_of_replaces {new : Option FileTree}
    (hr : FileTree.Replaces (f.home thread ++ [name]) new t t') (hdot : '.' ∈ name.toList)
    (hother : other ≠ "") (hne : other ≠ thread) :
    t'.has (f.home other) = t.has (f.home other) := by
  rw [FileTree.has, FileTree.has,
    hr.apart _ (file_not_prefix_home hdot) (home_apart hother hdot hne)]

/-! ## Forgetting steps -/

/-- A thread whose file of a step is gone holds its history without this step. -/
theorem Holds.drop {h : History} (hh : f.Holds t thread h) {step : Nat}
    (hgone : t'.find? (f.home thread ++ [f.fileName step]) = none)
    (hsame : ∀ n, step ≠ n → t'.find? (f.home thread ++ [f.fileName n]) =
      t.find? (f.home thread ++ [f.fileName n])) : f.Holds t' thread (h.drop step) where
  sound := hh.sound.drop step
  file n := by
    rw [History.get?_drop]
    by_cases hn : step = n
    · rw [if_pos hn, ← hn]
      exact hgone
    · rw [if_neg hn, ← hh.file n]
      exact hsame n hn
  fits n c hc := by
    rw [History.get?_drop] at hc
    split at hc
    · cases hc
    · exact hh.fits n c hc

/-- Where no file of a step is found, the thread has no checkpoint of it. -/
theorem Holds.get?_eq_none (hf : f.Settled) (ht : f.Tidy t) {h : History}
    (hh : f.Holds t thread h) {step : Nat} (hseek : seek? t (f.filePath thread step) = none) :
    h.get? step = none := by
  cases hget : h.get? step with
  | none => rfl
  | some c =>
    have hfile := hh.file step
    rw [hget] at hfile
    have hfound := (seek?_file hf).2
      ⟨⟨(hh.fits step c hget).2.1, (ht.reached hf hfile).2⟩, rfl, hfile⟩
    rw [hfound] at hseek
    cases hseek

/-- Forgetting a step of a thread changes the history of this thread only. -/
theorem deleteStep_alters (hf : f.Settled) (ht : f.Tidy t) {step : Nat}
    (h : f.deleteStep t thread step = (.ok (), t')) :
    f.Alters t thread (fun held => held.drop step) t' ∧
      t'.has (f.home thread) = t.has (f.home thread) := by
  unfold FolderStore.deleteStep at h
  cases hseek : seek? t (f.filePath thread step) with
  | none =>
    rw [hseek] at h
    obtain ⟨-, rfl⟩ := Prod.mk.inj h
    refine ⟨⟨ht, fun held hh => hh.drop ?_ fun _ _ => rfl, fun _ _ _ hh => hh, fun _ _ _ => rfl⟩,
      rfl⟩
    rw [hh.file, hh.get?_eq_none hf ht hseek]
    rfl
  | some found =>
    obtain ⟨p, x⟩ := found
    obtain ⟨⟨-, hopens⟩, rfl, hx⟩ := (seek?_file hf).1 hseek
    rw [hseek] at h
    cases x with
    | folder entries => cases (Prod.mk.inj h).1
    | file content =>
      obtain ⟨-, rfl⟩ := Prod.mk.inj h
      have hr := FileTree.replaces_drop ht.sound
        (p := f.home thread ++ [f.fileName step]) (by simp)
      have hdot := f.dot_mem_fileName step
      have hopen := FileTree.isOpen_of_find?_snoc hx
      have hopen' := hr.above _ (List.prefix_append _ _) (home_ne_file hdot) hopen
      refine ⟨⟨?_, fun held hh => hh.drop hr.here fun n hn => find?_fileName_of_ne hr hn,
        fun other hne held hh => hh.of_replaces hr hdot (.inl hne),
        fun other hother hne => has_of_replaces hr hdot hother hne⟩, ?_⟩
      · exact ht.of_replaces hf hr (f.base_prefix_home thread) hopens hopen fun _ hnone => by
          cases hnone
      · rw [hopen'.has, hopen.has]

/-- Forgetting steps one after another. By induction on the steps. -/
theorem deleteSteps_alters (hf : f.Settled) {steps : List Nat} (ht : f.Tidy t)
    (h : f.deleteSteps thread t steps = (.ok (), t')) :
    f.Alters t thread (fun held => steps.foldl History.drop held) t' ∧
      t'.has (f.home thread) = t.has (f.home thread) := by
  induction steps generalizing t with
  | nil =>
    cases h
    exact ⟨⟨ht, fun _ hh => hh, fun _ _ _ hh => hh, fun _ _ _ => rfl⟩, rfl⟩
  | cons step rest ih =>
    unfold FolderStore.deleteSteps at h
    cases hstep : f.deleteStep t thread step with
    | mk done u =>
      rw [hstep] at h
      cases done with
      | error e => cases (Prod.mk.inj h).1
      | ok _ =>
        obtain ⟨hfirst, hhas⟩ := deleteStep_alters hf ht hstep
        obtain ⟨hrest, hhas'⟩ := ih hfirst.tidy h
        exact ⟨hfirst.trans hrest, hhas'.trans hhas⟩

/-- To prune is to forget the first of the steps that are read. -/
theorem prune_eq_ok {keep gone : Nat} (h : f.prune t thread keep = (.ok gone, t')) :
    ∃ steps, f.history t thread = .ok steps ∧
      f.deleteSteps thread t (steps.take (steps.length - keep)) = (.ok (), t') := by
  unfold FolderStore.prune at h
  cases hhistory : f.history t thread with
  | error e =>
    rw [hhistory] at h
    cases (Prod.mk.inj h).1
  | ok steps =>
    rw [hhistory] at h
    refine ⟨steps, rfl, ?_⟩
    cases hres : f.deleteSteps thread t (steps.take (steps.length - keep)) with
    | mk done u =>
      dsimp only at h
      rw [hres] at h
      obtain ⟨hdone, rfl⟩ := Prod.mk.inj h
      cases done with
      | error e => cases hdone
      | ok _ => rfl

/-! ## Saving -/

/-- What is there once the folder of a thread has been created: inside the store's folder nothing else
is new. -/
structure Furnishes (f : FolderStore) (t : FileTree) (thread : String) (t' : FileTree) : Prop where
  path : FileTree.isPath (f.threadPath thread) = true
  opens : f.Opens t'
  isOpen : t'.IsOpen (f.home thread)
  root : t'.IsOpen []
  sound : t'.Sound
  same : ∀ q, f.base <+: q → q ≠ f.base → (thread ≠ "" → q ≠ f.home thread) →
    t'.find? q = t.find? q

theorem furnishes_makeFolders (hf : f.Settled) (hs : t.Sound) (hroot : t.IsOpen [])
    (h : t.makeFolders? (f.threadPath thread) = some t') : f.Furnishes t thread t' := by
  rw [FileTree.makeFolders?, Option.ite_none_right_eq_some] at h
  obtain ⟨hpath, h⟩ := h
  obtain ⟨hmade, hopened⟩ := FileTree.made_makeAlong? h
  have hstops := hopened hroot
  rw [threadPath, FileTree.namesOf_join hf.path_ne (slash_not_mem_encode thread)] at hmade hstops
  refine ⟨hpath, fun q hq => hstops q ((mem_stops_thread hf).2 (.inl hq)),
    hstops _ ((mem_stops_thread hf).2 (.inr rfl)), hmade.stays [] hroot, hmade.sound hs,
    fun q hbase hne hhome => hmade.apart q fun p hp hqp => ?_⟩
  -- Inside the store's folder, only that of the thread is on the path.
  rcases (mem_stops_thread hf).1 hp with hp | rfl
  · rw [hf.outside p hp (hbase.trans hqp)] at hqp
    exact hne (hqp.eq_of_length_le hbase.length_le)
  · obtain ⟨hthread, heq⟩ := eq_home_of_prefix hbase hne hqp
    exact hhome hthread heq

theorem Furnishes.find?_file (h : f.Furnishes t thread t') (other : String) (step : Nat) :
    t'.find? (f.home other ++ [f.fileName step]) = t.find? (f.home other ++ [f.fileName step]) :=
  h.same _ ((f.base_prefix_home other).trans (List.prefix_append _ _)) (f.inside_ne_base other _)
    fun _ => (home_ne_file (f.dot_mem_fileName step)).symm

theorem Furnishes.find?_home (h : f.Furnishes t thread t') (hother : other ≠ "")
    (hne : other ≠ thread) : t'.find? (f.home other) = t.find? (f.home other) := by
  apply h.same _ (f.base_prefix_home other) (home_ne_base hother)
  intro _ heq
  exact home_apart_home hother hne ⟨[], by rw [heq, List.append_nil]⟩

theorem Furnishes.tidy (h : f.Furnishes t thread t') (hf : f.Settled) (ht : f.Tidy t) :
    f.Tidy t' where
  sound := h.sound
  root := h.root
  folder other x hx := by
    by_cases hon : f.home other <+: f.home thread
    · obtain ⟨entries, hentries⟩ := h.isOpen.of_prefix hon
      rw [hentries] at hx
      cases hx
      rfl
    · have hother : other ≠ "" := by
        rintro rfl
        exact hon (home_unnamed f ▸ f.base_prefix_home thread)
      have hne : other ≠ thread := by
        rintro rfl
        exact hon (List.prefix_refl _)
      rw [h.find?_home hother hne] at hx
      exact ht.folder other x hx
  reach name x hx := by
    refine ⟨?_, h.opens⟩
    by_cases heq : thread ≠ "" ∧ f.base ++ [name] = f.home thread
    · rw [home_named heq.1] at heq
      rw [List.singleton_inj.1 (List.append_cancel_left heq.2), ← threadPath_eq hf]
      exact h.path
    · rw [h.same _ (List.prefix_append _ _) (by simp) fun hthread hname =>
        heq ⟨hthread, hname⟩] at hx
      exact (ht.reach name x hx).1
  names other name x hx := by
    by_cases heq : thread ≠ "" ∧ f.home other ++ [name] = f.home thread
    · obtain ⟨hthread, heq⟩ := heq
      rw [home_named hthread] at heq
      obtain ⟨hbase, hname⟩ := List.append_inj' heq rfl
      refine .inr ⟨?_, thread, hthread, List.singleton_inj.1 hname⟩
      by_contra hother
      exact home_ne_base hother hbase
    · rw [h.same _ ((f.base_prefix_home other).trans (List.prefix_append _ _))
        (f.inside_ne_base other name) fun hthread hname => heq ⟨hthread, hname⟩] at hx
      exact ht.names other name x hx

theorem Furnishes.locate? (h : f.Furnishes t thread t') (hf : f.Settled) :
    t'.locate? (f.threadPath thread) = some (f.home thread) := by
  obtain ⟨entries, hentries⟩ := h.isOpen
  exact (seek?_eq_some_iff.1 ((seek?_thread hf).2 ⟨⟨h.path, h.opens⟩, rfl, hentries⟩)).1

/-- What a checkpoint that has been saved went through: its thread's folder was created, a draft was
written there and taken away again, and the checkpoint's file was put in its place. -/
theorem save_eq_ok (hf : f.Settled) (ht : f.Tidy t) {c : Checkpoint}
    (h : f.save t c = (.ok (), t')) :
    ∃ u w, t.makeFolders? (f.threadPath c.thread) = some u ∧
      FileTree.isPath (f.filePath c.thread c.step) = true ∧
      FileTree.Replaces (f.home c.thread ++ [draftName c.step])
        (some (.file (f.contentOf (Json.pretty c.toValue)))) u w ∧
      FileTree.Replaces (f.home c.thread ++ [f.fileName c.step])
        (some (.file (f.contentOf (Json.pretty c.toValue))))
        (w.drop (f.home c.thread ++ [draftName c.step])) t' := by
  unfold FolderStore.save at h
  cases hmake : t.makeFolders? (f.threadPath c.thread) with
  | none =>
    rw [hmake] at h
    cases (Prod.mk.inj h).1
  | some u =>
    rw [hmake] at h
    dsimp only at h
    rw [(furnishes_makeFolders hf ht.sound ht.root hmake).locate? hf, Option.getD_some] at h
    split at h
    · cases (Prod.mk.inj h).1
    · cases hdraft : u.put? (f.home c.thread ++ [draftName c.step])
          (.file (f.contentOf (Json.pretty c.toValue))) with
      | none =>
        rw [hdraft] at h
        cases (Prod.mk.inj h).1
      | some w =>
        rw [hdraft] at h
        dsimp only at h
        split at h
        · cases (Prod.mk.inj h).1
        · next hchecked =>
          cases hput : (w.drop (f.home c.thread ++ [draftName c.step])).put?
              (f.home c.thread ++ [f.fileName c.step])
              (.file (f.contentOf (Json.pretty c.toValue))) with
          | none =>
            rw [hput] at h
            cases (Prod.mk.inj h).1
          | some v =>
            rw [hput] at h
            obtain ⟨-, rfl⟩ := Prod.mk.inj h
            refine ⟨u, w, rfl, ?_, FileTree.replaces_put? hdraft, FileTree.replaces_put? hput⟩
            simpa using (not_or.1 hchecked).1

/-- A thread with a new file of a step holds its history with the checkpoint of this file. -/
theorem Holds.put {h : History} (hh : f.Holds t thread h) {c : Checkpoint}
    (hfile : t'.find? (f.home thread ++ [f.fileName c.step]) =
      some (.file (f.contentOf (Json.pretty c.toValue))))
    (hsame : ∀ n, c.step ≠ n → t'.find? (f.home thread ++ [f.fileName n]) =
      t.find? (f.home thread ++ [f.fileName n]))
    (hfits : c.step < UInt64.size ∧ FileTree.isPath (f.filePath thread c.step) = true ∧
      checkpointOf (Json.pretty c.toValue) = .ok c) : f.Holds t' thread (h.put c) where
  sound := hh.sound.put c
  file n := by
    rw [History.get?_put]
    by_cases hn : c.step = n
    · rw [if_pos hn, ← hn]
      exact hfile
    · rw [if_neg hn, ← hh.file n]
      exact hsame n hn
  fits n d hd := by
    rw [History.get?_put] at hd
    split at hd
    · next hn =>
      cases hd
      exact hn ▸ hfits
    · exact hh.fits n d hd

/-- What a saved checkpoint leaves: a tidy tree with the file of the checkpoint, in which the files of
all other steps are as before, and so are the folders of other threads. -/
structure Places (f : FolderStore) (t : FileTree) (c : Checkpoint) (t' : FileTree) : Prop where
  tidy : f.Tidy t'
  path : FileTree.isPath (f.filePath c.thread c.step) = true
  here : t'.find? (f.home c.thread ++ [f.fileName c.step]) =
    some (.file (f.contentOf (Json.pretty c.toValue)))
  same : ∀ thread step, thread ≠ c.thread ∨ step ≠ c.step →
    t'.find? (f.home thread ++ [f.fileName step]) = t.find? (f.home thread ++ [f.fileName step])
  stands : ∀ other, other ≠ "" → other ≠ c.thread → t'.has (f.home other) = t.has (f.home other)
  home : t'.has (f.home c.thread) = true

/-- Saving a checkpoint puts its file into the folder of its thread, and changes nothing else. -/
theorem save_places (hf : f.Settled) (ht : f.Tidy t) {c : Checkpoint} (hstep : c.step < UInt64.size)
    (h : f.save t c = (.ok (), t')) : f.Places t c t' := by
  obtain ⟨u, w, hmake, hpath, hdraft, hput⟩ := save_eq_ok hf ht h
  have hmade := furnishes_makeFolders hf ht.sound ht.root hmake
  have hnew : ∀ x, some (FileTree.file (f.contentOf (Json.pretty c.toValue))) = some x →
      (∃ content, x = .file content) ∧ f.Admits (f.home c.thread ++ [f.fileName c.step]) := by
    rintro x ⟨⟩
    exact ⟨⟨_, rfl⟩, admits_file hf hstep hpath⟩
  have hsound : ∀ x, some (FileTree.file (f.contentOf (Json.pretty c.toValue))) = some x →
      x.Sound := by
    rintro x ⟨⟩
    exact FileTree.sound_file _
  have hdot := dot_mem_draftName c.step
  have hdot' := f.dot_mem_fileName c.step
  -- The draft is gone when the file stands.
  have hwritten : w.Sound := hdraft.sound hmade.sound hsound
  have hgone := hdraft.trans (FileTree.replaces_drop hwritten (by simp)) hsound
  have htidy := (hmade.tidy hf ht).of_replaces hf hgone (f.base_prefix_home _) hmade.opens
    hmade.isOpen fun _ hnone => by cases hnone
  have hopen := hgone.above _ (List.prefix_append _ _) (home_ne_file hdot) hmade.isOpen
  have hopens := hmade.opens.of_replaces hf hgone
    ((f.base_prefix_home _).trans (List.prefix_append _ _)) (f.inside_ne_base _ _)
  refine ⟨htidy.of_replaces hf hput (f.base_prefix_home _) hopens hopen hnew, hpath, hput.here,
    fun thread step hne => ?_, fun other hother hne => ?_, ?_⟩
  · have hname : thread ≠ c.thread ∨ f.fileName step ≠ f.fileName c.step :=
      hne.imp id (mt f.fileName_inj.1)
    have hdraft : f.fileName step ≠ draftName c.step := f.fileName_ne_draftName step c.step
    rw [hput.apart _ (file_apart hdot' (hname.imp Ne.symm Ne.symm))
        (file_apart (f.dot_mem_fileName step) hname),
      hgone.apart _ (file_apart hdot (.inr hdraft.symm))
        (file_apart (f.dot_mem_fileName step) (.inr hdraft)), hmade.find?_file]
  · rw [has_of_replaces hput hdot' hother hne, has_of_replaces hgone hdot hother hne,
      FileTree.has, FileTree.has, hmade.find?_home hother hne]
  · exact (hput.above _ (List.prefix_append _ _) (home_ne_file hdot') hopen).has

/-- **Saving a checkpoint keeps it in its thread, over one of the same step.** -/
theorem save_alters (hf : f.Settled) (ht : f.Tidy t) {c : Checkpoint} (hstep : c.step < UInt64.size)
    (hread : checkpointOf (Json.pretty c.toValue) = .ok c) (h : f.save t c = (.ok (), t')) :
    f.Alters t c.thread (fun held => held.put c) t' ∧ t'.has (f.home c.thread) = true := by
  have hplaced := save_places hf ht hstep h
  refine ⟨⟨hplaced.tidy, fun held hh => ?_, fun other hne held hh => ?_, hplaced.stands⟩,
    hplaced.home⟩
  · exact hh.put hplaced.here (fun n hn => hplaced.same _ n (.inr hn.symm))
      ⟨hstep, hplaced.path, hread⟩
  · exact hh.of_same fun step => hplaced.same other step (.inl hne)

/-! ## Forgetting threads -/

/-- A thread without files holds nothing. -/
theorem holds_nil (h : ∀ name, t.find? (f.home thread ++ [name]) = none) : f.Holds t thread [] :=
  ⟨⟨List.Pairwise.nil, by simp⟩, fun _ => h _, fun _ _ hc => by cases hc⟩

/-- Whether there is nothing inside the store's folder. -/
def Bare (f : FolderStore) (t : FileTree) : Prop :=
  ∀ name rest, t.find? (f.base ++ name :: rest) = none

theorem Bare.find?_inside (h : f.Bare t) (thread name : String) :
    t.find? (f.home thread ++ [name]) = none := by
  unfold home
  split
  · rw [List.append_nil]
    exact h _ _
  · rw [List.append_assoc]
    exact h _ _

theorem Bare.find?_home (h : f.Bare t) (hthread : thread ≠ "") :
    t.find? (f.home thread) = none := by
  rw [home_named hthread]
  exact h _ _

/-- A sound tree is tidy if there is nothing inside the store's folder. -/
theorem Bare.tidy (h : f.Bare t) (hs : t.Sound) (hroot : t.IsOpen [])
    (hbase : ∀ x, t.find? f.base = some x → x.isFolder = true) : f.Tidy t where
  sound := hs
  root := hroot
  folder thread x hx := by
    by_cases hthread : thread = ""
    · rw [hthread, home_unnamed] at hx
      exact hbase x hx
    · rw [h.find?_home hthread] at hx
      cases hx
  reach name x hx := by
    rw [h name []] at hx
    cases hx
  names thread name x hx := by
    rw [h.find?_inside thread name] at hx
    cases hx

/-- Where no folder of a named thread is found, there is none. -/
theorem Tidy.find?_home_eq_none (ht : f.Tidy t) (hf : f.Settled) (hthread : thread ≠ "")
    (hseek : seek? t (f.threadPath thread) = none) : t.find? (f.home thread) = none := by
  cases hfound : t.find? (f.home thread) with
  | none => rfl
  | some x =>
    have hinside := hfound
    rw [home_named hthread] at hinside
    have hreach := ht.reach _ x hinside
    rw [← threadPath_eq hf] at hreach
    rw [(seek?_thread hf).2 ⟨hreach, rfl, hfound⟩] at hseek
    cases hseek

/-- **Forgetting a named thread changes the history of this thread only.** -/
theorem delete_alters (hf : f.Settled) (ht : f.Tidy t) (hthread : thread ≠ "")
    (h : f.delete t thread = (.ok (), t')) :
    f.Alters t thread (fun _ => []) t' ∧ t'.has (f.home thread) = false := by
  unfold FolderStore.delete at h
  cases hseek : seek? t (f.threadPath thread) with
  | none =>
    rw [hseek] at h
    obtain ⟨-, rfl⟩ := Prod.mk.inj h
    have hnone := ht.find?_home_eq_none hf hthread hseek
    refine ⟨⟨ht, fun _ _ => holds_nil fun name => ?_, fun _ _ _ hh => hh, fun _ _ _ => rfl⟩, ?_⟩
    · rw [FileTree.find?_append, hnone]
      rfl
    · rw [FileTree.has, hnone]
      rfl
  | some found =>
    obtain ⟨p, x⟩ := found
    obtain ⟨⟨-, hopens⟩, rfl, hx⟩ := (seek?_thread hf).1 hseek
    rw [hseek] at h
    cases x with
    | file content => cases (Prod.mk.inj h).1
    | folder entries =>
      obtain ⟨-, rfl⟩ := Prod.mk.inj h
      have hr := FileTree.replaces_drop ht.sound (p := f.home thread) (by simp [home_named hthread])
      have hr' := hr
      rw [home_named hthread] at hr'
      refine ⟨⟨?_, fun _ _ => holds_nil fun name => ?_, fun other hne held hh => ?_,
        fun other hother hne => ?_⟩, ?_⟩
      · rw [home_named hthread]
        exact ht.of_replaces hf hr' (List.prefix_refl _) hopens (hopens _ (base_mem_stops hf))
          fun _ hnone => by cases hnone
      · rw [FileTree.find?_append, hr.here]
        rfl
      · exact hh.of_same fun step => hr.apart _
          (home_apart hthread (f.dot_mem_fileName step) hne.symm)
          (file_not_prefix_home (f.dot_mem_fileName step))
      · rw [FileTree.has, FileTree.has, hr.apart _ (home_apart_home hthread hne.symm)
          (home_apart_home hother hne)]
      · rw [FileTree.has, hr.here]
        rfl

/-- **Forgetting the thread without a name forgets every thread.** -/
theorem delete_unnamed (hf : f.Settled) (ht : f.Tidy t) (h : f.delete t "" = (.ok (), t')) :
    f.Tidy t' ∧ f.Bare t' := by
  unfold FolderStore.delete at h
  cases hseek : seek? t (f.threadPath "") with
  | none =>
    rw [hseek] at h
    obtain ⟨-, rfl⟩ := Prod.mk.inj h
    refine ⟨ht, fun name rest => ?_⟩
    cases hfound : t.find? (f.base ++ name :: rest) with
    | none => rfl
    | some x =>
      rw [List.append_cons] at hfound
      obtain ⟨y, hy, -⟩ := FileTree.exists_of_find?_append hfound
      rw [← home_unnamed] at hy
      obtain ⟨entries, hopen⟩ := FileTree.isOpen_of_find?_snoc hy
      rw [(seek?_thread hf).2 ⟨ht.reached hf hy, rfl, hopen⟩] at hseek
      cases hseek
  | some found =>
    obtain ⟨p, x⟩ := found
    obtain ⟨-, rfl, -⟩ := (seek?_thread hf).1 hseek
    rw [hseek] at h
    cases x with
    | file content => cases (Prod.mk.inj h).1
    | folder entries =>
      obtain ⟨-, rfl⟩ := Prod.mk.inj h
      rw [home_unnamed]
      have hr := FileTree.replaces_drop ht.sound hf.base_ne
      have hbare : f.Bare (t.drop f.base) := by
        intro name rest
        rw [FileTree.find?_append, hr.here]
        rfl
      refine ⟨hbare.tidy (hr.sound ht.sound (by simp)) ?_ ?_, hbare⟩
      · exact hr.above [] List.nil_prefix hf.base_ne.symm ht.root
      · intro x hx
        rw [hr.here] at hx
        cases hx

end FolderStore

end WorkflowGraph
