import Mathlib.Logic.Basic
import WorkflowGraph.Definition.Source
import WorkflowGraph.Proofs.FileTree.Paths

/-!
# Where references lead

The key of a file is its canonical path (`SourceFiles.exists_place_of_read?`): names without a slash,
each behind one. A relative reference in it means what lies in the same folder. Where more text is put
behind the key, the reference still means the same exactly if no name follows behind the first slash
of that text (`SourceFiles.pathOf_append_eq_iff`).
-/

set_option autoImplicit false

namespace WorkflowGraph

namespace FileTree

/-- Whether a name can be that of an entry on a canonical path. -/
def Proper (name : String) : Prop := '/' ∉ name.toList ∧ name ≠ "" ∧ name ≠ "."

/-- Names with a slash in front of each. -/
def slashed (names : List String) : String := String.join (names.map fun name => "/" ++ name)

@[simp] theorem slashed_nil : slashed [] = "" := rfl

@[simp] theorem slashed_cons (name : String) (rest : List String) :
    slashed (name :: rest) = "/" ++ name ++ slashed rest := by
  simp [slashed, String.join_cons]

@[simp] theorem slashed_append (front back : List String) :
    slashed (front ++ back) = slashed front ++ slashed back := by
  simp [slashed, String.join_append]

theorem slashed_eq {names : List String} (h : names ≠ []) : pathOf names = slashed names := by
  induction names with
  | nil => exact absurd rfl h
  | cons name rest ih =>
    by_cases hnil : rest = []
    · subst hnil
      simp [pathOf]
    · rw [pathOf, String.intercalate_cons_of_ne_nil hnil, slashed_cons, ← ih hnil, pathOf]
      simp [String.append_assoc]

theorem namesOf_pathOf {names : List String} (hne : names ≠ [])
    (hslash : ∀ name ∈ names, '/' ∉ name.toList) : namesOf (pathOf names) = "" :: names := by
  have hpath : pathOf names = String.intercalate (String.singleton '/') ("" :: names) := by
    rw [String.intercalate_cons_of_ne_nil hne, String.empty_append]
    rfl
  rw [hpath, namesOf, Text.split_intercalate (List.cons_ne_nil _ _)]
  exact List.forall_mem_cons.2 ⟨by simp, hslash⟩

theorem slash_not_mem_namesOf (path : String) : ∀ name ∈ namesOf path, '/' ∉ name.toList := by
  intro name hname
  obtain ⟨part, hpart, rfl⟩ := List.mem_map.1 hname
  rw [String.toList_ofList]
  exact Text.not_mem_of_mem_splitList part hpart

/-- All names of a place that is found are proper ones. -/
theorem proper_of_follow? {t : FileTree} {start names place : List String}
    (hstart : ∀ name ∈ start, Proper name) (hnames : ∀ name ∈ names, '/' ∉ name.toList)
    (h : t.follow? start names = some place) : ∀ name ∈ place, Proper name := by
  induction names generalizing start with
  | nil =>
    rw [follow?, Option.ite_none_right_eq_some] at h
    rwa [← Option.some.inj h.2]
  | cons name rest ih =>
    obtain ⟨hname, hrest⟩ := List.forall_mem_cons.1 hnames
    rw [follow?_cons, Option.ite_none_right_eq_some] at h
    refine ih ?_ hrest h.2
    unfold FileTree.place.step
    split
    · exact hstart
    · next hstay =>
      split
      · exact fun n hn => hstart n (List.dropLast_subset _ hn)
      · intro n hn
        rcases List.mem_append.1 hn with hn | hn
        · exact hstart n hn
        · obtain rfl := List.mem_singleton.1 hn
          exact ⟨hname, fun h => hstay (.inl h), fun h => hstay (.inr h)⟩

theorem endsWith_slashed {names : List String} (hne : names ≠ [])
    (hproper : ∀ name ∈ names, Proper name) : (slashed names).endsWith "/" = false := by
  obtain ⟨init, last, rfl⟩ := (List.eq_nil_or_concat names).resolve_left hne
  rw [List.concat_eq_append] at hproper ⊢
  obtain ⟨hslash, hempty, -⟩ := hproper last (by simp)
  rw [slashed_append, slashed_cons, slashed_nil, String.append_empty, ← String.append_assoc]
  exact endsWith_slash_of_join hslash hempty _

/-- What lies in the folder with some names has one more slash. -/
theorem join_pathOf {names : List String} (hproper : ∀ name ∈ names, Proper name) {path : String}
    (hpath : path.startsWith "/" = false) : join (pathOf names) path = slashed names ++ "/" ++ path := by
  by_cases hne : names = []
  · subst hne
    have hroot : pathOf [] = "/" := rfl
    have hend : "/".endsWith "/" = true := endsWith_slash_iff.2 ⟨"", rfl⟩
    rw [hroot, join, hpath, hend]
    simp
  · have hempty : (pathOf names).isEmpty = false := by
      simp [pathOf]
    have hend := endsWith_slashed hne hproper
    rw [← slashed_eq hne] at hend ⊢
    rw [join, hpath, hempty, hend]
    simp

end FileTree

namespace SourceFiles

open FileTree

variable {files : SourceFiles} {front : List String} {last more reference : String}

/-- **The key of a file that is read** is a path of proper names. -/
theorem exists_place_of_read? {path : String} {source : Source}
    (h : files.read? path = some source) :
    ∃ front last, source.key = FileTree.pathOf (front ++ [last]) ∧
      ∀ name ∈ front ++ [last], Proper name := by
  unfold read? at h
  split at h
  · cases h
  · obtain ⟨place, hplace, h⟩ := Option.bind_eq_some_iff.1 h
    obtain ⟨text, htext, h⟩ := Option.bind_eq_some_iff.1 h
    cases h
    rw [locate?, Option.ite_none_right_eq_some] at hplace
    have hproper := proper_of_follow? (by simp) (slash_not_mem_namesOf _) hplace.2
    have hne : place ≠ [] := by
      rintro rfl
      -- the tree itself is a folder where a name has been followed, and no file
      obtain ⟨first, rest, hnames⟩ := List.exists_cons_of_ne_nil
        (Text.split_ne_nil '/' (FileTree.join files.current path))
      have hfollow := hplace.2
      rw [namesOf, hnames, follow?_cons, Option.ite_none_right_eq_some, any_isFolder_iff] at hfollow
      obtain ⟨entries, hentries⟩ := hfollow.1
      rw [FileTree.read?, hentries] at htext
      cases htext
    obtain ⟨front, last, rfl⟩ := (List.eq_nil_or_concat place).resolve_left hne
    rw [List.concat_eq_append] at hproper
    exact ⟨front, last, by rw [List.concat_eq_append], hproper⟩

theorem exists_place_of_load {base : Option String} {source : Source}
    (h : files.load reference base = .ok source) :
    ∃ front last, source.key = FileTree.pathOf (front ++ [last]) ∧
      ∀ name ∈ front ++ [last], Proper name := by
  unfold load at h
  split at h
  · next hread =>
    cases h
    exact exists_place_of_read? hread
  · cases h

/-- The names of a path that lead on. -/
def leading (names : List String) : List String := names.filter fun name => name != "" && name != "."

theorem leading_of_proper {names : List String} (h : ∀ name ∈ names, Proper name) :
    leading names = names := by
  refine List.filter_eq_self.2 fun name hname => ?_
  obtain ⟨-, hempty, hdot⟩ := h name hname
  simp [hempty, hdot]

theorem leading_eq_nil_iff {names : List String} :
    leading names = [] ↔ ∀ name ∈ names, name = "" ∨ name = "." := by
  simp only [leading, List.filter_eq_nil_iff, Bool.and_eq_true, bne_iff_ne, not_and_or, Ne, not_not]

theorem proper_append {name : String} (hname : Proper name) {more : String}
    (hmore : '/' ∉ more.toList) : Proper (name ++ more) := by
  obtain ⟨hslash, hempty, hdot⟩ := hname
  refine ⟨by simp [hslash, hmore], by simp [hempty], fun h => ?_⟩
  have hlist := congrArg String.toList h
  rw [String.toList_append] at hlist
  rcases List.append_eq_singleton_iff.1 hlist with ⟨hnil, -⟩ | ⟨hsame, -⟩
  · exact hempty (String.toList_eq_nil_iff.1 hnil)
  · exact hdot (String.toList_inj.1 hsame)

/-- Behind a key, more text goes on with its last name, and leads on by its further names. -/
theorem proper_names (hproper : ∀ name ∈ front ++ [last], Proper name) {first : String}
    {rest : List String} (hmore : namesOf more = first :: rest) :
    ∀ name ∈ front ++ (last ++ first) :: leading rest, Proper name := by
  have hslash := slash_not_mem_namesOf more
  rw [hmore] at hslash
  obtain ⟨hfirst, hrest⟩ := List.forall_mem_cons.1 hslash
  intro name hname
  rcases List.mem_append.1 hname with hfront | hname
  · exact hproper name (by simp [hfront])
  · rcases List.mem_cons.1 hname with rfl | hleading
    · exact proper_append (hproper last (by simp)) hfirst
    · obtain ⟨hmem, hkeeps⟩ := List.mem_filter.1 hleading
      simp only [Bool.and_eq_true, bne_iff_ne] at hkeeps
      exact ⟨hrest name hmem, hkeeps⟩

/-- The names of a key with more text behind it. -/
theorem plainNames_append (hproper : ∀ name ∈ front ++ [last], Proper name) {first : String}
    {rest : List String} (hmore : namesOf more = first :: rest) :
    plainNames (FileTree.pathOf (front ++ [last]) ++ more) =
      front ++ (last ++ first) :: leading rest := by
  have hslash (name : String) (hname : name ∈ front ++ [last]) : '/' ∉ name.toList :=
    (hproper name hname).1
  have hkey : namesOf (FileTree.pathOf (front ++ [last])) = ("" :: front) ++ [last] :=
    namesOf_pathOf (by simp) hslash
  have hnames : namesOf (FileTree.pathOf (front ++ [last]) ++ more) =
      "" :: (front ++ (last ++ first) :: rest) := Text.split_append_of_eq hkey hmore
  have hall : leading (front ++ (last ++ first) :: rest) =
      front ++ (last ++ first) :: leading rest := by
    have hstart : ∀ name ∈ front ++ [last ++ first], Proper name := fun name hname =>
      proper_names hproper hmore name (by
        rw [← List.singleton_append, ← List.append_assoc]
        exact List.mem_append_left _ hname)
    have hleading := leading_of_proper hstart
    rw [List.append_cons, leading, List.filter_append, ← leading, hleading, ← leading,
      ← List.append_cons]
  unfold plainNames
  rw [hnames]
  exact hall

/-- The folder of a key with more text behind it. -/
theorem folderOf_append (hproper : ∀ name ∈ front ++ [last], Proper name) {first : String}
    {rest : List String} (hmore : namesOf more = first :: rest) :
    folderOf (FileTree.pathOf (front ++ [last]) ++ more) =
      some (FileTree.pathOf (front ++ (last ++ first) :: leading rest).dropLast) := by
  have hstart : (FileTree.pathOf (front ++ [last]) ++ more).startsWith "/" = true := by
    rw [FileTree.pathOf, String.startsWith_string_iff]
    simp
  have hcons : ∃ name names, front ++ (last ++ first) :: leading rest = name :: names :=
    List.exists_cons_of_ne_nil (by simp)
  obtain ⟨name, names, hcons⟩ := hcons
  unfold folderOf
  rw [plainNames_append hproper hmore, hstart, if_pos rfl, hcons]
  rfl

/-- Whether a reference is taken from the folder of the source that it stands in. -/
structure Relative (files : SourceFiles) (reference : String) : Prop where
  relative : reference.startsWith "/" = false
  plain : Text.after? "~/" reference = none ∨ files.home = none

theorem Relative.pathOf (h : files.Relative reference) (base : Option String) :
    files.pathOf reference base = match base.bind folderOf with
      | some around => FileTree.join around reference
      | none => reference := by
  unfold SourceFiles.pathOf
  rcases h.plain with hplain | hhome
  · cases base.bind folderOf <;> simp only [hplain]
  · cases base.bind folderOf <;> cases Text.after? "~/" reference <;> simp only [hhome]

/-- **What a reference means behind a key** with more text. -/
theorem pathOf_append (h : files.Relative reference)
    (hproper : ∀ name ∈ front ++ [last], Proper name) {first : String} {rest : List String}
    (hmore : namesOf more = first :: rest) :
    files.pathOf reference (some (FileTree.pathOf (front ++ [last]) ++ more)) =
      slashed (front ++ (last ++ first) :: leading rest).dropLast ++ "/" ++ reference := by
  rw [h.pathOf, Option.bind_some, folderOf_append hproper hmore]
  exact join_pathOf
    (fun name hname => proper_names hproper hmore name (List.dropLast_subset _ hname)) h.relative

/-- In the source with the key itself, a reference leads to what lies beside it. -/
theorem pathOf_key (h : files.Relative reference)
    (hproper : ∀ name ∈ front ++ [last], Proper name) :
    files.pathOf reference (some (FileTree.pathOf (front ++ [last]))) =
      slashed front ++ "/" ++ reference := by
  have hnone : namesOf "" = "" :: [] := rfl
  have hpath := pathOf_append h hproper hnone
  simpa [leading] using hpath

/-- **A reference behind a key with more text means the same exactly if no name follows** behind the
first slash of that text. -/
theorem pathOf_append_eq_iff (h : files.Relative reference)
    (hproper : ∀ name ∈ front ++ [last], Proper name) :
    files.pathOf reference (some (FileTree.pathOf (front ++ [last]) ++ more)) =
        slashed front ++ "/" ++ reference ↔
      ∀ name ∈ (namesOf more).tail, name = "" ∨ name = "." := by
  obtain ⟨first, rest, hmore⟩ := List.exists_cons_of_ne_nil (Text.split_ne_nil '/' more)
  rw [pathOf_append h hproper hmore]
  have htail : (namesOf more).tail = rest := congrArg List.tail hmore
  rw [htail, ← leading_eq_nil_iff]
  cases hrest : leading rest with
  | nil => simp
  | cons second others =>
    refine iff_of_false (fun heq => ?_) (List.cons_ne_nil _ _)
    have hlength := congrArg (fun s => s.toList.length) heq
    simp at hlength
    omega

end SourceFiles

end WorkflowGraph
