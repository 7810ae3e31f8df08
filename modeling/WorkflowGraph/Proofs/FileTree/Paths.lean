import WorkflowGraph.Proofs.FileTree.Changes
import WorkflowGraph.Proofs.Text

/-!
# Following paths in a file tree

Following a path only asks which places on its way are folders (`FileTree.follow?_concat`), and
creating the folders of a path adds folders at these places only (`FileTree.made_makeAlong?`). What
is joined to a path is found directly below the place of the path (`FileTree.locate?_join`).
-/

set_option autoImplicit false

namespace WorkflowGraph.FileTree

variable {t t' : FileTree} {p : List String}

/-! ## Names on the way -/

/-- The places that are passed when the names of a path are followed. -/
def stops (start : List String) (names : List String) : List (List String) :=
  names.scanl place.step start

theorem stops_cons (start : List String) (name : String) (rest : List String) :
    stops start (name :: rest) = start :: stops (place.step start name) rest := List.scanl_cons

theorem mem_stops_self (start names : List String) : start ∈ stops start names := by
  cases names with
  | nil => exact List.mem_singleton.2 rfl
  | cons name rest => rw [stops_cons]; exact List.mem_cons_self

theorem mem_stops_last (start names : List String) :
    names.foldl place.step start ∈ stops start names := by
  induction names generalizing start with
  | nil => exact List.mem_singleton.2 rfl
  | cons name rest ih =>
    rw [stops_cons]
    exact List.mem_cons_of_mem _ (ih _)

theorem mem_stops_append {start names more : List String} :
    p ∈ stops start (names ++ more) ↔
      p ∈ stops start names ∨ p ∈ stops (names.foldl place.step start) more := by
  induction names generalizing start with
  | nil =>
    constructor
    · exact .inr
    · rintro (h | h)
      · cases List.mem_singleton.1 h
        exact mem_stops_self _ _
      · exact h
  | cons name rest ih =>
    rw [List.cons_append, stops_cons, stops_cons, List.mem_cons, List.mem_cons, ih, or_assoc]
    rfl

/-- A name that does not lead back leads to the place itself or below. -/
theorem isPrefix_step {name : String} (hback : name ≠ "..") (start : List String) :
    start <+: place.step start name := by
  by_cases hstay : name = "" ∨ name = "."
  · have heq : place.step start name = start := if_pos hstay
    exact ⟨[], by rw [heq, List.append_nil]⟩
  · exact ⟨[name], by rw [place.step, if_neg hstay, if_neg hback]⟩

/-- Where no name leads back, all that is passed is on the way to the end. By induction on the
names. -/
theorem isPrefix_of_mem_stops {start names : List String} (hback : ".." ∉ names)
    (hp : p ∈ stops start names) : p <+: names.foldl place.step start := by
  induction names generalizing start p with
  | nil => exact ⟨[], by rw [List.mem_singleton.1 hp, List.append_nil]; rfl⟩
  | cons name rest ih =>
    have hname : name ≠ ".." := fun h => hback (h ▸ List.mem_cons_self)
    have hrest : ".." ∉ rest := fun h => hback (List.mem_cons_of_mem _ h)
    rw [stops_cons] at hp
    rcases List.mem_cons.1 hp with rfl | hp
    · exact (isPrefix_step hname p).trans (ih hrest (mem_stops_self _ _))
    · exact ih hrest hp

theorem follow?_cons (t : FileTree) (start : List String) (name : String) (rest : List String) :
    t.follow? start (name :: rest) =
      if (t.find? start).any isFolder then t.follow? (place.step start name) rest else none := by
  rw [follow?, place.step]
  split
  · split
    · rfl
    · split
      · rfl
      · rfl
  · rfl

/-- A path is followed through folders to what its last name leads to. By induction on the names
on the way. -/
theorem follow?_concat {start names : List String} {name : String} :
    t.follow? start (names ++ [name]) = some p ↔
      (∀ q ∈ stops start names, t.IsOpen q) ∧ t.has p = true ∧
        p = place.step (names.foldl place.step start) name := by
  induction names generalizing start with
  | nil =>
    rw [List.nil_append, follow?_cons, follow?, Option.ite_none_right_eq_some, any_isFolder_iff,
      Option.ite_none_right_eq_some, Option.some_inj]
    constructor
    · rintro ⟨hopen, hhas, rfl⟩
      exact ⟨fun q hq => List.mem_singleton.1 hq ▸ hopen, hhas, rfl⟩
    · rintro ⟨hopen, hhas, rfl⟩
      exact ⟨hopen start (mem_stops_self _ _), hhas, rfl⟩
  | cons first rest ih =>
    rw [List.cons_append, follow?_cons, Option.ite_none_right_eq_some, any_isFolder_iff, ih,
      stops_cons, List.forall_mem_cons, and_assoc]
    exact Iff.rfl

/-- Creating the folders on a path makes every place that is passed a folder. By induction on the
names. -/
theorem made_makeAlong? {start names : List String} (h : t.makeAlong? start names = some t') :
    Made (stops start names) t t' ∧ (t.IsOpen start → ∀ q ∈ stops start names, t'.IsOpen q) := by
  induction names generalizing t start with
  | nil =>
    cases h
    refine ⟨⟨fun _ _ => rfl, fun _ hq => hq, id⟩, fun hopen q hq => ?_⟩
    exact List.mem_singleton.1 hq ▸ hopen
  | cons name rest ih =>
    rw [stops_cons]
    rw [makeAlong?] at h
    split at h
    · next hname =>
      have hstep : place.step start name = start := if_pos hname
      obtain ⟨hmade, hopens⟩ := ih h
      rw [hstep]
      refine ⟨hmade.mono fun p hp => List.mem_cons_of_mem _ hp, fun hopen q hq => ?_⟩
      rcases List.mem_cons.1 hq with rfl | hq
      · exact hmade.stays q hopen
      · exact hopens hopen q hq
    · next hname =>
      split at h
      · next hback =>
        have hstep : place.step start name = start.dropLast := by
          rw [place.step, if_neg hname, if_pos hback]
        obtain ⟨hmade, hopens⟩ := ih h
        rw [hstep]
        refine ⟨hmade.mono fun p hp => List.mem_cons_of_mem _ hp, fun hopen q hq => ?_⟩
        rcases List.mem_cons.1 hq with rfl | hq
        · exact hmade.stays q hopen
        · exact hopens (hopen.of_prefix (List.dropLast_prefix start)) q hq
      · next hback =>
        have hstep : place.step start name = start ++ [name] := by
          rw [place.step, if_neg hname, if_neg hback]
        split at h
        · next u hfolder =>
          obtain ⟨hmade, hopens⟩ := ih h
          have hfirst := made_makeFolder? hfolder
          rw [hstep]
          refine ⟨(hfirst.trans hmade).mono fun p hp => ?_, fun hopen q hq => ?_⟩
          · rcases List.mem_append.1 hp with hp | hp
            · cases List.mem_singleton.1 hp
              exact List.mem_cons_of_mem _ (mem_stops_self _ _)
            · exact List.mem_cons_of_mem _ hp
          · rcases List.mem_cons.1 hq with rfl | hq
            · exact hmade.stays q (hfirst.stays q hopen)
            · exact hopens (isOpen_of_makeFolder? hfolder) q hq
        · cases h

/-- The folders of a path can be created where no file is passed, unless a name is too long. By
induction on the names. -/
theorem isSome_makeAlong?_iff {start names : List String} (hopen : t.IsOpen start)
    (hstart : ∀ name ∈ start, name.utf8ByteSize ≤ maxName)
    (h : ∀ q ∈ stops start names, t.Passable q) :
    (t.makeAlong? start names).isSome = true ↔
      ∀ name ∈ names, name.utf8ByteSize ≤ maxName := by
  induction names generalizing t start with
  | nil => simp [makeAlong?]
  | cons name rest ih =>
    rw [stops_cons, List.forall_mem_cons] at h
    have hrest := h.2
    rw [List.forall_mem_cons, makeAlong?]
    split
    · next hname =>
      have hstep : place.step start name = start := if_pos hname
      rw [hstep] at hrest
      have hshort : name.utf8ByteSize ≤ maxName := by
        rcases hname with rfl | rfl
        · decide
        · decide
      rw [ih hopen hstart hrest, and_iff_right hshort]
    · next hname =>
      split
      · next hback =>
        have hstep : place.step start name = start.dropLast := by
          rw [place.step, if_neg hname, if_pos hback]
        rw [hstep] at hrest
        have hshort : name.utf8ByteSize ≤ maxName := by
          rw [hback]
          decide
        rw [ih (hopen.of_prefix (List.dropLast_prefix start))
          (fun n hn => hstart n ((List.dropLast_sublist _).subset hn)) hrest, and_iff_right hshort]
      · next hback =>
        have hstep : place.step start name = start ++ [name] := by
          rw [place.step, if_neg hname, if_neg hback]
        rw [hstep] at hrest
        have hway : ∀ q, q <+: start ++ [name] → t.Passable q := by
          intro q hq
          rcases List.prefix_concat_iff.1 hq with rfl | hq
          · exact hrest _ (mem_stops_self _ _)
          · exact (hopen.of_prefix hq).passable
        have hmake := isSome_makeFolder?_iff hway
        rw [List.forall_mem_append, and_iff_right hstart, List.forall_mem_singleton] at hmake
        split
        · next u hu =>
          have hshort := hmake.1 (by rw [hu]; rfl)
          have hmade := made_makeFolder? hu
          have hopen' := isOpen_of_makeFolder? hu
          rw [ih hopen' ?_ ?_, and_iff_right hshort]
          · rw [List.forall_mem_append, List.forall_mem_singleton]
            exact ⟨hstart, hshort⟩
          · intro q hq
            by_cases hpart : q <+: start ++ [name]
            · exact (hopen'.of_prefix hpart).passable
            · intro x hx
              rw [hmade.apart q (by simpa using hpart)] at hx
              exact hrest q hq x hx
        · next hnone =>
          have hlong : ¬ name.utf8ByteSize ≤ maxName := by
            intro hshort
            have := hmake.2 hshort
            rw [hnone] at this
            cases this
          simp [hlong]

/-! ## Written paths -/

/-- The names on the way to what stands directly below a path. A slash at its end leaves no name. -/
def way (path : String) : List String :=
  if path.endsWith "/" then (namesOf path).dropLast else namesOf path

theorem endsWith_slash_iff {path : String} :
    path.endsWith "/" = true ↔ ∃ stem, path = stem ++ "/" := by
  rw [String.endsWith_eq_endsWith_toSlice, String.Slice.endsWith_string_iff,
    String.copy_toSlice]
  constructor
  · rintro ⟨front, h⟩
    refine ⟨String.ofList front, ?_⟩
    rw [← String.toList_inj, String.toList_append, String.toList_ofList]
    exact h.symm
  · rintro ⟨stem, rfl⟩
    rw [String.toList_append]
    exact List.suffix_append _ _

theorem join_eq {path name : String} (hpath : path ≠ "") (hname : '/' ∉ name.toList) :
    join path name = if path.endsWith "/" then path ++ name else path ++ "/" ++ name := by
  have hstart : name.startsWith "/" = false := by
    rw [Bool.eq_false_iff, Ne, String.startsWith_string_iff]
    rintro ⟨rest, hrest⟩
    apply hname
    rw [← hrest]
    exact List.mem_cons_self
  have hempty : path.isEmpty = false := by
    rw [Bool.eq_false_iff, Ne, String.isEmpty_iff]
    exact hpath
  rw [join, hstart, hempty, if_neg (by simp)]

theorem namesOf_slash (stem : String) : namesOf (stem ++ "/") = Text.split '/' stem ++ [""] := by
  rw [namesOf, ← String.append_empty (s := stem ++ "/")]
  exact Text.split_append '/' stem ""

/-- What is joined to a path stands behind one slash. -/
theorem exists_join {path : String} (hpath : path ≠ "") :
    ∃ stem, (path = stem ∨ path = stem ++ "/") ∧ way path = Text.split '/' stem ∧
      ∀ name : String, '/' ∉ name.toList → join path name = stem ++ "/" ++ name := by
  by_cases hend : path.endsWith "/" = true
  · obtain ⟨stem, rfl⟩ := endsWith_slash_iff.1 hend
    refine ⟨stem, .inr rfl, ?_, fun name hname => ?_⟩
    · rw [way, if_pos hend, namesOf_slash, List.dropLast_concat]
    · rw [join_eq hpath hname, if_pos hend]
  · refine ⟨path, .inl rfl, if_neg hend, fun name hname => ?_⟩
    rw [join_eq hpath hname, if_neg hend]

theorem endsWith_slash_of_join {name : String} (hname : '/' ∉ name.toList) (hne : name ≠ "")
    (path : String) : (path ++ name).endsWith "/" = false := by
  rw [Bool.eq_false_iff, Ne, endsWith_slash_iff]
  rintro ⟨stem, h⟩
  have hlast : (path ++ name).toList.getLast? = some '/' := by
    rw [h, String.toList_append]
    exact List.getLast?_concat
  cases hmore : name.toList.getLast? with
  | none => exact hne (String.toList_eq_nil_iff.1 (List.getLast?_eq_none_iff.1 hmore))
  | some last =>
    rw [String.toList_append, List.getLast?_append, hmore] at hlast
    cases hlast
    exact hname (List.mem_of_getLast? hmore)

theorem join_ne_empty {path name : String} (hpath : path ≠ "") (hname : '/' ∉ name.toList) :
    join path name ≠ "" := by
  obtain ⟨stem, -, -, hjoin⟩ := exists_join hpath
  rw [hjoin name hname]
  intro h
  have := congrArg String.toList h
  simp at this

/-- A path that ends with a slash is joined without another one. -/
theorem join_eq_append {path name : String} (hpath : path ≠ "") (hname : '/' ∉ name.toList) :
    join path name = join path "" ++ name := by
  obtain ⟨stem, -, -, hjoin⟩ := exists_join hpath
  rw [hjoin name hname, hjoin "" (by simp), String.append_empty]

theorem endsWith_slash_join_empty {path : String} (hpath : path ≠ "") :
    (join path "").endsWith "/" = true := by
  obtain ⟨stem, -, -, hjoin⟩ := exists_join hpath
  rw [hjoin "" (by simp), String.append_empty]
  exact endsWith_slash_iff.2 ⟨stem, rfl⟩

theorem join_join_empty {path name : String} (hpath : path ≠ "") (hname : '/' ∉ name.toList) :
    join (join path "") name = join path name := by
  rw [join_eq (join_ne_empty hpath (by simp)) hname, if_pos (endsWith_slash_join_empty hpath),
    join_eq_append hpath hname]

theorem namesOf_join {path name : String} (hpath : path ≠ "") (hname : '/' ∉ name.toList) :
    namesOf (join path name) = way path ++ [name] := by
  obtain ⟨stem, -, hway, hjoin⟩ := exists_join hpath
  rw [hjoin name hname, hway, namesOf, ← Text.split_of_not_mem hname]
  exact Text.split_append '/' stem name

theorem way_join {path name : String} (hpath : path ≠ "") (hname : '/' ∉ name.toList)
    (hne : name ≠ "") : way (join path name) = way path ++ [name] := by
  rw [way, join_eq_append hpath hname, endsWith_slash_of_join hname hne, if_neg (by simp),
    ← join_eq_append hpath hname, namesOf_join hpath hname]

theorem way_join_empty {path : String} (hpath : path ≠ "") : way (join path "") = way path := by
  rw [way, if_pos (endsWith_slash_join_empty hpath), namesOf_join hpath (by simp),
    List.dropLast_concat]

/-- The way to what stands below a path leads to the place of the path. -/
theorem foldl_way {path : String} (hpath : path ≠ "") :
    (way path).foldl place.step [] = place path := by
  obtain ⟨stem, hstem, hway, -⟩ := exists_join hpath
  rcases hstem with rfl | rfl
  · rw [hway]
    rfl
  · rw [hway, place, namesOf_slash, List.foldl_append, List.foldl_cons, List.foldl_nil, place.step,
      if_pos (.inl rfl)]

/-- The beginning of a path is a path. -/
theorem isPath_of_append {path rest : String} (hpath : path ≠ "") (h : isPath (path ++ rest)) :
    isPath path := by
  unfold isPath at h ⊢
  simp only [Bool.and_eq_true, decide_eq_true_eq, Bool.not_eq_true', Bool.eq_false_iff, Ne,
    String.isEmpty_iff, List.contains_iff_mem, String.utf8ByteSize_append, String.toList_append,
    List.mem_append, not_or] at h ⊢
  exact ⟨⟨hpath, by omega⟩, h.2.1⟩

/-- What stands directly below a path is found at its place, if all that is passed on the way to it
are folders. -/
theorem locate?_join {path name : String} (hpath : path ≠ "") (hname : '/' ∉ name.toList) :
    t.locate? (join path name) = some p ↔
      isPath (join path name) = true ∧ (∀ q ∈ stops [] (way path), t.IsOpen q) ∧
        t.has p = true ∧ p = place.step (place path) name := by
  rw [locate?, Option.ite_none_right_eq_some, namesOf_join hpath hname, follow?_concat,
    foldl_way hpath]

theorem namesOf_ne_nil (path : String) : namesOf path ≠ [] := Text.split_ne_nil '/' path

/-- The place of a path is where its last name leads to. -/
theorem place_eq (path : String) :
    place path = place.step ((namesOf path).dropLast.foldl place.step [])
      ((namesOf path).getLast (namesOf_ne_nil path)) := by
  have h := congrArg (List.foldl place.step []) (List.dropLast_concat_getLast (namesOf_ne_nil path))
  rw [List.foldl_append] at h
  exact h.symm

theorem locate?_eq_some_iff {path : String} :
    t.locate? path = some p ↔ isPath path = true ∧
      (∀ q ∈ stops [] (namesOf path).dropLast, t.IsOpen q) ∧ t.has p = true ∧ p = place path := by
  rw [locate?, Option.ite_none_right_eq_some, place_eq, ← follow?_concat]
  exact Iff.of_eq (by rw [List.dropLast_concat_getLast])

/-- A path can be followed if all that is passed on the way to what stands below it are folders. -/
theorem locate?_of_isOpen {path : String} (hpath : path ≠ "") (h : isPath path = true)
    (hopen : ∀ q ∈ stops [] (way path), t.IsOpen q) : t.locate? path = some (place path) := by
  have hfront : ∀ q ∈ stops [] (namesOf path).dropLast, q ∈ stops [] (way path) := by
    intro q hq
    unfold way
    split
    · exact hq
    · rw [← List.dropLast_concat_getLast (namesOf_ne_nil path)]
      exact mem_stops_append.2 (.inl hq)
  have hlast : t.IsOpen (place path) := hopen _ (foldl_way hpath ▸ mem_stops_last [] (way path))
  exact locate?_eq_some_iff.2 ⟨h, fun q hq => hopen q (hfront q hq), hlast.has, rfl⟩

/-- A path is the beginning of the path to what stands below it. -/
theorem isPath_of_join {path : String} (hpath : path ≠ "") (h : isPath (join path "") = true) :
    isPath path = true := by
  rw [join_eq hpath (by simp)] at h
  split at h
  · exact isPath_of_append hpath h
  · rw [String.append_assoc] at h
    exact isPath_of_append hpath h

end WorkflowGraph.FileTree
