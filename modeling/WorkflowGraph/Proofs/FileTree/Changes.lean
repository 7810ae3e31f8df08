import WorkflowGraph.FileTree
import WorkflowGraph.Proofs.Dict

/-!
# What changes in a file tree

Everything that is done to a file tree is done at one place of it. `FileTree.Replaces` says what that
means: something else, or nothing, is at the place, and whatever is neither below it nor on the way to
it is as before. Where folders are created, all that was there before stays (`FileTree.Made`).
-/

set_option autoImplicit false

namespace WorkflowGraph.FileTree

variable {t t' u : FileTree} {p q : List String}

/-! ## Places -/

/-- Whether there is a folder at a place. -/
def IsOpen (t : FileTree) (place : List String) : Prop :=
  ∃ entries, t.find? place = some (.folder entries)

/-- Whether the names of every folder rise. -/
def Sound (t : FileTree) : Prop :=
  ∀ place entries, t.find? place = some (.folder entries) → Dict.Rising entries

theorem find?_append (t : FileTree) (p q : List String) :
    t.find? (p ++ q) = (t.find? p).bind fun child => child.find? q := by
  induction p generalizing t with
  | nil => rfl
  | cons name rest ih =>
    cases t with
    | file content => rfl
    | folder entries =>
      show (Dict.get? entries name).bind _ = ((Dict.get? entries name).bind _).bind _
      cases Dict.get? entries name with
      | none => rfl
      | some child => exact ih child

theorem find?_folder_cons (entries : List (String × FileTree)) (name : String)
    (rest : List String) :
    (folder entries).find? (name :: rest) =
      (Dict.get? entries name).bind fun child => child.find? rest := rfl

theorem find?_empty {p : List String} (h : p ≠ []) : empty.find? p = none := by
  cases p with
  | nil => exact absurd rfl h
  | cons name rest => rfl

/-- Below an entry that is not there yet there is nothing, as in an empty folder. -/
theorem find?_getD_empty {entries : List (String × FileTree)} {name : String} (h : p ≠ []) :
    ((Dict.get? entries name).getD empty).find? p = (folder entries).find? (name :: p) := by
  rw [find?_folder_cons]
  cases Dict.get? entries name with
  | none => exact find?_empty h
  | some child => rfl

/-- What is below a place is below something. -/
theorem exists_of_find?_append {x : FileTree} (h : t.find? (p ++ q) = some x) :
    ∃ y, t.find? p = some y ∧ y.find? q = some x := by
  rw [find?_append, Option.bind_eq_some_iff] at h
  exact h

theorem isOpen_of_isFolder {x : FileTree} (h : t.find? p = some x) (hx : x.isFolder = true) :
    t.IsOpen p := by
  cases x with
  | file content => cases hx
  | folder entries => exact ⟨entries, h⟩

theorem any_isFolder_iff : (t.find? p).any isFolder = true ↔ t.IsOpen p := by
  constructor
  · intro h
    cases hfound : t.find? p with
    | none =>
      rw [hfound] at h
      cases h
    | some x =>
      rw [hfound] at h
      exact isOpen_of_isFolder hfound h
  · rintro ⟨entries, h⟩
    rw [h]
    rfl

theorem IsOpen.has (h : t.IsOpen p) : t.has p = true := by
  obtain ⟨entries, h⟩ := h
  rw [FileTree.has, h]
  rfl

/-- Something stands in a folder only. -/
theorem isOpen_of_find?_snoc {name : String} {x : FileTree} (h : t.find? (p ++ [name]) = some x) :
    t.IsOpen p := by
  obtain ⟨y, hy, hx⟩ := exists_of_find?_append h
  cases y with
  | file content => cases hx
  | folder entries => exact ⟨entries, hy⟩

/-- The way to a folder leads through folders. -/
theorem IsOpen.of_prefix (h : t.IsOpen p) (hq : q <+: p) : t.IsOpen q := by
  obtain ⟨rest, rfl⟩ := hq
  obtain ⟨entries, h⟩ := h
  cases rest with
  | nil => exact ⟨entries, by simpa using h⟩
  | cons name more =>
    obtain ⟨y, hy, hx⟩ := exists_of_find?_append h
    cases y with
    | file content => cases hx
    | folder inner => exact ⟨inner, hy⟩

theorem Sound.of_find? (h : t.Sound) {x : FileTree} (hx : t.find? p = some x) : x.Sound := by
  intro place entries hfound
  apply h (p ++ place) entries
  rw [find?_append, hx]
  exact hfound

theorem sound_file (content : Content) : (file content).Sound := by
  intro place entries h
  cases place with
  | nil => cases h
  | cons name rest => cases h

theorem sound_empty : empty.Sound := by
  intro place entries h
  cases place with
  | nil =>
    cases h
    exact List.Pairwise.nil
  | cons name rest => cases h

theorem Sound.entry {entries : List (String × FileTree)} (h : (folder entries).Sound)
    (name : String) : ((Dict.get? entries name).getD empty).Sound := by
  cases hget : Dict.get? entries name with
  | none => exact sound_empty
  | some child =>
    apply h.of_find? (p := [name])
    rw [find?_folder_cons, hget]
    rfl

theorem Sound.put {entries : List (String × FileTree)} (h : (folder entries).Sound) (name : String)
    {inner : FileTree} (hinner : inner.Sound) : (folder (Dict.put entries name inner)).Sound := by
  intro place found hfound
  cases place with
  | nil =>
    cases hfound
    exact (h [] entries rfl).put name inner
  | cons other more =>
    rw [find?_folder_cons] at hfound
    by_cases hname : name = other
    · subst hname
      rw [Dict.get?_put_self] at hfound
      exact hinner more found hfound
    · rw [Dict.get?_put_of_ne _ _ hname] at hfound
      exact h (other :: more) found hfound

/-! ## Changes at a place -/

/-- Whether the second tree is the first one with something else, or nothing, at a place. The
folders on the way to it may have other entries for that, and nothing besides differs. -/
structure Replaces (p : List String) (new : Option FileTree) (t t' : FileTree) : Prop where
  here : t'.find? p = new
  apart : ∀ q, ¬ p <+: q → ¬ q <+: p → t'.find? q = t.find? q
  above : ∀ q, q <+: p → q ≠ p → t.IsOpen q → t'.IsOpen q
  sound : t.Sound → (∀ x, new = some x → x.Sound) → t'.Sound

theorem Replaces.refl (p : List String) (t : FileTree) : Replaces p (t.find? p) t t :=
  ⟨rfl, fun _ _ _ => rfl, fun _ _ _ h => h, fun h _ => h⟩

theorem Replaces.trans {a b : Option FileTree} (h : Replaces p a t u) (h' : Replaces p b u t')
    (ha : ∀ x, a = some x → x.Sound) : Replaces p b t t' where
  here := h'.here
  apart q hpq hqp := (h'.apart q hpq hqp).trans (h.apart q hpq hqp)
  above q hq hne ho := h'.above q hq hne (h.above q hq hne ho)
  sound hs hb := h'.sound (h.sound hs ha) hb

theorem Replaces.whole (t c : FileTree) : Replaces [] (some c) t c where
  here := rfl
  apart _ hq _ := absurd List.nil_prefix hq
  above _ hq hne _ := absurd (List.prefix_nil.1 hq) hne
  sound _ hc := hc c rfl

/-- What is changed in a folder's entry, which is taken for an empty folder if it is not there yet, is
changed in the folder. -/
theorem Replaces.below {entries : List (String × FileTree)} {name : String} {rest : List String}
    {new : Option FileTree} {inner : FileTree}
    (h : Replaces rest new ((Dict.get? entries name).getD empty) inner) :
    Replaces (name :: rest) new (folder entries) (folder (Dict.put entries name inner)) where
  here := by
    rw [find?_folder_cons, Dict.get?_put_self]
    exact h.here
  apart q hpq hqp := by
    cases q with
    | nil => exact absurd List.nil_prefix hqp
    | cons other more =>
      by_cases hname : name = other
      · subst hname
        rw [List.cons_prefix_cons] at hpq hqp
        have hmore : more ≠ [] := by
          rintro rfl
          exact hqp ⟨rfl, List.nil_prefix⟩
        rw [find?_folder_cons, Dict.get?_put_self, ← find?_getD_empty hmore]
        exact h.apart more (fun hp => hpq ⟨rfl, hp⟩) fun hp => hqp ⟨rfl, hp⟩
      · rw [find?_folder_cons, find?_folder_cons, Dict.get?_put_of_ne _ _ hname]
  above q hqp hne ho := by
    cases q with
    | nil => exact ⟨_, rfl⟩
    | cons other more =>
      obtain ⟨rfl, hmore⟩ := List.cons_prefix_cons.1 hqp
      obtain ⟨found, ho⟩ := ho
      rw [find?_folder_cons] at ho
      obtain ⟨child, hget, ho⟩ := Option.bind_eq_some_iff.1 ho
      have hopen : ((Dict.get? entries other).getD empty).IsOpen more := by
        rw [hget]
        exact ⟨found, ho⟩
      obtain ⟨found', ho'⟩ := h.above more hmore (fun heq => hne (by rw [heq])) hopen
      refine ⟨found', ?_⟩
      rw [find?_folder_cons, Dict.get?_put_self]
      exact ho'
  sound hs hnew := hs.put name (h.sound (hs.entry name) hnew)

theorem Replaces.absent (h : t.find? p = none) : Replaces p none t t := h ▸ Replaces.refl p t

/-- Removing an entry of a folder whose names rise. -/
theorem Replaces.erased {entries : List (String × FileTree)} (h : Dict.Rising entries)
    (name : String) : Replaces [name] none (folder entries) (folder (Dict.drop entries name)) where
  here := by
    rw [find?_folder_cons, h.get?_drop, if_pos rfl]
    rfl
  apart q hpq hqp := by
    cases q with
    | nil => exact absurd List.nil_prefix hqp
    | cons other more =>
      rw [find?_folder_cons, find?_folder_cons, h.get?_drop, if_neg]
      rintro rfl
      exact hpq (List.cons_prefix_cons.2 ⟨rfl, List.nil_prefix⟩)
  above q hqp hne ho := by
    cases q with
    | nil => exact ⟨_, rfl⟩
    | cons other more =>
      obtain ⟨rfl, hmore⟩ := List.cons_prefix_cons.1 hqp
      exact absurd (by rw [List.prefix_nil.1 hmore]) hne
  sound hs _ := by
    intro place found hfound
    cases place with
    | nil =>
      cases hfound
      exact h.drop name
    | cons other more =>
      rw [find?_folder_cons, h.get?_drop] at hfound
      split at hfound
      · cases hfound
      · exact hs (other :: more) found hfound

/-- Putting something at a place changes the tree there, whose folder is there before. By
induction on the way to the place. -/
theorem replaces_put? {c : FileTree} (h : t.put? p c = some t') : Replaces p (some c) t t' := by
  induction p generalizing t t' with
  | nil =>
    cases t with
    | file content => cases h
    | folder entries => cases h
  | cons name rest ih =>
    cases t with
    | file content =>
      cases rest with
      | nil => cases h
      | cons next more => cases h
    | folder entries =>
      cases rest with
      | nil =>
        simp only [put?] at h
        split at h
        · cases h
          exact (Replaces.whole _ c).below
        · cases h
      | cons next more =>
        simp only [put?] at h
        split at h
        · next inner' hinner =>
          cases h
          obtain ⟨inner, hget, hput⟩ := Option.bind_eq_some_iff.1 hinner
          apply Replaces.below
          rw [hget]
          exact ih hput
        · cases h

/-- Removing what is at a place changes a sound tree there only. By induction on the way to the
place. -/
theorem replaces_drop (hs : t.Sound) (hp : p ≠ []) : Replaces p none t (t.drop p) := by
  induction p generalizing t with
  | nil => exact absurd rfl hp
  | cons name rest ih =>
    cases t with
    | file content =>
      cases rest with
      | nil => exact Replaces.absent rfl
      | cons next more => exact Replaces.absent rfl
    | folder entries =>
      cases rest with
      | nil => exact Replaces.erased (hs [] entries rfl) name
      | cons next more =>
        simp only [drop]
        cases hget : Dict.get? entries name with
        | none =>
          apply Replaces.absent
          rw [find?_folder_cons, hget]
          rfl
        | some inner =>
          have hinner := hs.entry name
          apply Replaces.below
          rw [hget] at hinner ⊢
          exact ih hinner (List.cons_ne_nil _ _)

theorem replaces_makeFolder? (h : t.makeFolder? p = some t') :
    Replaces p (some ((t.find? p).getD empty)) t t' := by
  induction p generalizing t t' with
  | nil =>
    unfold makeFolder? at h
    split at h
    · cases h
      exact Replaces.whole t t
    · cases h
  | cons name rest ih =>
    cases t with
    | file content => cases h
    | folder entries =>
      simp only [makeFolder?] at h
      split at h
      · split at h
        · next inner' hinner =>
          cases h
          have hnew : ((folder entries).find? (name :: rest)).getD empty =
              (((Dict.get? entries name).getD empty).find? rest).getD empty := by
            rw [find?_folder_cons]
            cases Dict.get? entries name with
            | some child => rfl
            | none =>
              cases rest with
              | nil => rfl
              | cons next more => rfl
          rw [hnew]
          exact (ih hinner).below
        · cases h
      · cases h

/-- A folder that has been created is there. By induction on the way to it. -/
theorem isOpen_of_makeFolder? (h : t.makeFolder? p = some t') : t'.IsOpen p := by
  induction p generalizing t t' with
  | nil =>
    unfold makeFolder? at h
    split at h
    · next hfolder =>
      cases h
      exact isOpen_of_isFolder rfl hfolder
    · cases h
  | cons name rest ih =>
    cases t with
    | file content => cases h
    | folder entries =>
      simp only [makeFolder?] at h
      split at h
      · split at h
        · next inner' hinner =>
          cases h
          obtain ⟨found, hfound⟩ := ih hinner
          refine ⟨found, ?_⟩
          rw [find?_folder_cons, Dict.get?_put_self]
          exact hfound
        · cases h
      · cases h

/-! ## Folders that are created -/

/-- Whether the second tree is the first one with folders at some places, and on the ways to
them. What was there before still is. -/
structure Made (places : List (List String)) (t t' : FileTree) : Prop where
  apart : ∀ q, (∀ p ∈ places, ¬ q <+: p) → t'.find? q = t.find? q
  stays : ∀ q, t.IsOpen q → t'.IsOpen q
  sound : t.Sound → t'.Sound

theorem made_makeFolder? (h : t.makeFolder? p = some t') : Made [p] t t' := by
  have hreplaces := replaces_makeFolder? h
  refine ⟨fun q hq => ?_, fun q hq => ?_, fun hs => hreplaces.sound hs ?_⟩
  · have hq : ¬ q <+: p := hq p List.mem_cons_self
    by_cases hpq : p <+: q
    · -- Below the place the folder is as it was, and a new one is empty.
      obtain ⟨rest, rfl⟩ := hpq
      have hrest : rest ≠ [] := by
        rintro rfl
        exact hq (by simp)
      rw [find?_append, find?_append, hreplaces.here]
      cases t.find? p with
      | none => exact find?_empty hrest
      | some x => rfl
    · exact hreplaces.apart q hpq hq
  · by_cases hqp : q <+: p
    · by_cases heq : q = p
      · exact heq ▸ isOpen_of_makeFolder? h
      · exact hreplaces.above q hqp heq hq
    · by_cases hpq : p <+: q
      · obtain ⟨rest, rfl⟩ := hpq
        obtain ⟨entries, hq⟩ := hq
        obtain ⟨y, hy, hrest⟩ := exists_of_find?_append hq
        refine ⟨entries, ?_⟩
        rw [find?_append, hreplaces.here, hy]
        exact hrest
      · obtain ⟨entries, hq⟩ := hq
        refine ⟨entries, ?_⟩
        rw [hreplaces.apart q hpq hqp]
        exact hq
  · rintro x ⟨⟩
    cases hfound : t.find? p with
    | none => exact sound_empty
    | some x => exact hs.of_find? hfound

theorem Made.trans {places more : List (List String)} (h : Made places t u) (h' : Made more u t') :
    Made (places ++ more) t t' where
  apart q hq := by
    rw [h'.apart q fun p hp => hq p (List.mem_append_right _ hp),
      h.apart q fun p hp => hq p (List.mem_append_left _ hp)]
  stays q hq := h'.stays q (h.stays q hq)
  sound hs := h'.sound (h.sound hs)

theorem Made.mono {places more : List (List String)} (h : Made places t t')
    (hsub : ∀ p ∈ places, p ∈ more) : Made more t t' :=
  ⟨fun q hq => h.apart q fun p hp => hq p (hsub p hp), h.stays, h.sound⟩

/-! ## What can be created -/

/-- Whether nothing but a folder is at a place. -/
def Passable (t : FileTree) (place : List String) : Prop :=
  ∀ x, t.find? place = some x → x.isFolder = true

theorem IsOpen.passable (h : t.IsOpen p) : t.Passable p := by
  obtain ⟨entries, h⟩ := h
  intro x hx
  rw [h] at hx
  cases hx
  rfl

/-- A folder can be created where no file is on the way to it, unless a name is too long. By
induction on the way. -/
theorem isSome_makeFolder?_iff (h : ∀ q, q <+: p → t.Passable q) :
    (t.makeFolder? p).isSome = true ↔ ∀ name ∈ p, name.utf8ByteSize ≤ maxName := by
  induction p generalizing t with
  | nil =>
    rw [makeFolder?, if_pos (h [] List.nil_prefix t rfl)]
    simp
  | cons name rest ih =>
    cases t with
    | file content => cases h [] List.nil_prefix _ rfl
    | folder entries =>
      have hinner : ∀ q, q <+: rest → ((Dict.get? entries name).getD empty).Passable q := by
        intro q hq x hx
        by_cases hnil : q = []
        · subst hnil
          cases hget : Dict.get? entries name with
          | none =>
            rw [hget] at hx
            cases hx
            rfl
          | some child =>
            rw [hget] at hx
            refine h [name] (List.cons_prefix_cons.2 ⟨rfl, List.nil_prefix⟩) x ?_
            rw [find?_folder_cons, hget]
            exact hx
        · rw [find?_getD_empty hnil] at hx
          exact h (name :: q) (List.cons_prefix_cons.2 ⟨rfl, hq⟩) x hx
      have hrest := ih hinner
      rw [List.forall_mem_cons, ← hrest, makeFolder?]
      split
      · next hname =>
        rw [and_iff_right hname]
        cases ((Dict.get? entries name).getD empty).makeFolder? rest with
        | none => simp
        | some inner => simp
      · next hname => simp [hname]

/-- Something can be put into a folder that is there, unless its name is too long. By induction on
the way to the folder. -/
theorem isSome_put?_iff (h : t.IsOpen p) (name : String) (child : FileTree) :
    (t.put? (p ++ [name]) child).isSome = true ↔ name.utf8ByteSize ≤ maxName := by
  induction p generalizing t with
  | nil =>
    obtain ⟨entries, h⟩ := h
    cases h
    rw [List.nil_append, put?]
    split
    · next hname => simp [hname]
    · next hname => simp [hname]
  | cons first rest ih =>
    obtain ⟨found, h⟩ := h
    cases t with
    | file content => cases h
    | folder entries =>
      rw [find?_folder_cons] at h
      obtain ⟨inner, hget, hinner⟩ := Option.bind_eq_some_iff.1 h
      rw [← ih ⟨found, hinner⟩]
      obtain ⟨next, more, hmore⟩ : ∃ next more, rest ++ [name] = next :: more :=
        List.exists_cons_of_ne_nil (by simp)
      rw [List.cons_append, hmore, put?, hget, Option.bind_some]
      · cases inner.put? (next :: more) child with
        | none => simp
        | some made => simp
      · exact List.cons_ne_nil _ _

end WorkflowGraph.FileTree
