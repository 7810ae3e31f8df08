import WorkflowGraph.Dict

/-!
# Reading and binding names

What a dictionary holds is read by `Dict.get?`. The lemmas here say what binding and removing a
name leave to be read, that both keep the keys rising, and that in a rising dictionary a name
that has been removed is gone. Pairs with different names give the same dictionary in every order
(`Dict.ofPairs_eq_of_perm`).
-/

set_option autoImplicit false

namespace WorkflowGraph.Dict

variable {α : Type}

theorem mem_of_get? {d : Dict α} {key : String} {value : α} (h : d.get? key = some value) :
    (key, value) ∈ d := by
  induction d with
  | nil => simp at h
  | cons p rest ih =>
    obtain ⟨k, v⟩ := p
    rw [get?_cons] at h
    split at h
    · next hk =>
      cases h
      rw [hk]
      exact List.mem_cons_self
    · exact List.mem_cons_of_mem _ (ih h)

theorem exists_get?_of_mem {d : Dict α} {key : String} {value : α} (h : (key, value) ∈ d) :
    ∃ v, d.get? key = some v := by
  induction d with
  | nil => cases h
  | cons p rest ih =>
    obtain ⟨k, v⟩ := p
    rw [get?_cons]
    split
    · exact ⟨v, rfl⟩
    · next hne =>
      rcases List.mem_cons.1 h with h | h
      · cases h
        exact absurd rfl hne
      · exact ih h

theorem eq_or_mem_of_mem_put {d : Dict α} {key : String} {value : α} {p : String × α}
    (h : p ∈ d.put key value) : p = (key, value) ∨ p ∈ d := by
  induction d with
  | nil => exact .inl (List.mem_singleton.1 h)
  | cons q rest ih =>
    obtain ⟨k, v⟩ := q
    unfold put at h
    split at h
    · rcases List.mem_cons.1 h with h | h
      · exact .inl h
      · exact .inr (List.mem_cons_of_mem _ h)
    · split at h
      · rcases List.mem_cons.1 h with h | h
        · exact .inl h
        · exact .inr h
      · rcases List.mem_cons.1 h with h | h
        · exact .inr (h ▸ List.mem_cons_self)
        · rcases ih h with h | h
          · exact .inl h
          · exact .inr (List.mem_cons_of_mem _ h)

theorem get?_mapValues {β : Type} (f : α → β) (d : Dict α) (key : String) :
    (d.mapValues f).get? key = (d.get? key).map f := by
  induction d with
  | nil => rfl
  | cons p rest ih =>
    obtain ⟨k, v⟩ := p
    show get? ((k, f v) :: mapValues f rest) key = _
    rw [get?_cons, get?_cons, ih]
    split <;> rfl

theorem isSome_get?_put {d : Dict α} {key other : String} {value : α}
    (h : key = other ∨ (d.get? other).isSome) : ((d.put key value).get? other).isSome := by
  rw [get?_put]
  split
  · rfl
  · next hne =>
    rcases h with h | h
    · exact absurd h hne
    · exact h

/-- Binding a name keeps the keys rising. -/
theorem Rising.put {d : Dict α} (h : d.Rising) (key : String) (value : α) :
    (d.put key value).Rising := by
  induction d with
  | nil => exact List.pairwise_singleton _ _
  | cons q rest ih =>
    obtain ⟨k, v⟩ := q
    obtain ⟨hk, hrest⟩ := List.pairwise_cons.1 h
    unfold Dict.put
    split
    · next heq =>
      subst heq
      exact List.pairwise_cons.2 ⟨hk, hrest⟩
    · next hne =>
      split
      · next hlt =>
        refine List.pairwise_cons.2 ⟨fun p hp => ?_, h⟩
        rcases List.mem_cons.1 hp with rfl | hp
        · exact hlt
        · exact String.lt_trans hlt (hk p hp)
      · next hlt =>
        refine List.pairwise_cons.2 ⟨fun p hp => ?_, ih hrest⟩
        rcases eq_or_mem_of_mem_put hp with rfl | hp
        · have hle : k ≤ key := String.not_lt.1 hlt
          exact Std.lt_of_le_of_ne hle hne
        · exact hk p hp

theorem get?_eq_none_of_forall_lt {d : Dict α} {key : String} (h : ∀ p ∈ d, key < p.1) :
    d.get? key = none := by
  cases hd : d.get? key with
  | none => rfl
  | some v => exact absurd (h _ (mem_of_get? hd)) (String.lt_irrefl key)

theorem mem_of_mem_drop {d : Dict α} {key : String} {p : String × α} (h : p ∈ d.drop key) :
    p ∈ d := by
  induction d with
  | nil => simp [Dict.drop] at h
  | cons q rest ih =>
    unfold Dict.drop at h
    split at h
    · exact List.mem_cons_of_mem _ h
    · rcases List.mem_cons.1 h with rfl | h
      · exact List.mem_cons_self
      · exact List.mem_cons_of_mem _ (ih h)

theorem get?_drop_eq_none {d : Dict α} {key other : String} (h : d.get? other = none) :
    (d.drop key).get? other = none := by
  rw [Option.eq_none_iff_forall_ne_some]
  intro value hvalue
  obtain ⟨found, hfound⟩ := exists_get?_of_mem (mem_of_mem_drop (mem_of_get? hvalue))
  rw [h] at hfound
  cases hfound

theorem get?_merge_of_eq_none {d e : Dict α} {key : String} (h : e.get? key = none) :
    (d.merge e).get? key = d.get? key := by
  unfold merge
  induction e generalizing d with
  | nil => rfl
  | cons p rest ih =>
    obtain ⟨name, value⟩ := p
    rw [get?_cons] at h
    split at h
    · cases h
    · next hne => rw [List.foldl_cons, ih h, get?_put_of_ne _ _ hne]

theorem Rising.drop {d : Dict α} (h : d.Rising) (key : String) : (d.drop key).Rising := by
  induction d with
  | nil => exact h
  | cons q rest ih =>
    obtain ⟨k, v⟩ := q
    obtain ⟨hk, hrest⟩ := List.pairwise_cons.1 h
    unfold Dict.drop
    split
    · exact hrest
    · exact List.pairwise_cons.2 ⟨fun p hp => hk p (mem_of_mem_drop hp), ih hrest⟩

/-- In a rising dictionary, removing a name removes all that is read under it, and nothing
that is read under another name. -/
theorem Rising.get?_drop {d : Dict α} (h : d.Rising) (key other : String) :
    (d.drop key).get? other = if key = other then none else d.get? other := by
  induction d with
  | nil => simp [Dict.drop]
  | cons q rest ih =>
    obtain ⟨k, v⟩ := q
    obtain ⟨hk, hrest⟩ := List.pairwise_cons.1 h
    unfold Dict.drop
    split
    · next heq =>
      subst heq
      split
      · next heq =>
        subst heq
        exact get?_eq_none_of_forall_lt hk
      · next hne => rw [get?_cons, if_neg hne]
    · next hne =>
      rw [get?_cons, ih hrest, get?_cons]
      by_cases ho : key = other
      · rw [if_pos ho, if_pos ho, if_neg (fun e => hne (e.trans ho.symm))]
      · rw [if_neg ho, if_neg ho]

/-! ## Dictionaries of lists of pairs -/

theorem Rising.nodup_names {d : Dict α} (h : d.Rising) : d.names.Nodup := by
  refine List.pairwise_map.2 (h.imp fun hlt heq => ?_)
  rw [heq] at hlt
  exact String.lt_irrefl _ hlt

/-- Two rising dictionaries with the same pairs are the same list. -/
theorem Rising.eq_of_perm {d e : Dict α} (hd : d.Rising) (he : e.Rising) (h : d.Perm e) : d = e :=
  h.eq_of_pairwise
    (fun _ _ _ _ hlt hgt => absurd (String.lt_trans hlt hgt) (String.lt_irrefl _)) hd he

theorem perm_put {d : Dict α} {key : String} {value : α} (h : key ∉ d.names) :
    (d.put key value).Perm ((key, value) :: d) := by
  induction d with
  | nil => exact .refl _
  | cons p rest ih =>
    obtain ⟨k, v⟩ := p
    simp only [names, List.map_cons, List.mem_cons, not_or] at h
    unfold put
    rw [if_neg fun heq : k = key => h.1 heq.symm]
    split
    · exact .refl _
    · exact ((ih h.2).cons _).trans (.swap _ _ _)

theorem rising_foldl_put {d : Dict α} (h : d.Rising) (pairs : List (String × α)) :
    (pairs.foldl (fun d p => d.put p.1 p.2) d).Rising := by
  induction pairs generalizing d with
  | nil => exact h
  | cons p rest ih => exact ih (h.put p.1 p.2)

theorem perm_foldl_put {d : Dict α} {pairs : List (String × α)}
    (h : (d.names ++ pairs.map Prod.fst).Nodup) :
    (pairs.foldl (fun d p => d.put p.1 p.2) d).Perm (d ++ pairs) := by
  induction pairs generalizing d with
  | nil => simp
  | cons p rest ih =>
    have hmiddle : (p.1 :: (d.names ++ rest.map Prod.fst)).Nodup :=
      (List.perm_middle (a := p.1)).nodup_iff.1 h
    have hput : (d.put p.1 p.2).Perm (p :: d) :=
      perm_put fun hmem => (List.nodup_cons.1 hmiddle).1 (List.mem_append_left _ hmem)
    have hnames : ((d.put p.1 p.2).names ++ rest.map Prod.fst).Nodup :=
      ((hput.map Prod.fst).append_right _).nodup_iff.2 hmiddle
    exact (ih hnames).trans ((hput.append_right rest).trans List.perm_middle.symm)

theorem mem_of_mem_ofPairs {pairs : List (String × α)} {p : String × α} (h : p ∈ ofPairs pairs) :
    p ∈ pairs := by
  have hfold (d : Dict α) (hd : p ∈ pairs.foldl (fun d q => put d q.1 q.2) d) :
      p ∈ d ∨ p ∈ pairs := by
    clear h
    induction pairs generalizing d with
    | nil => exact .inl hd
    | cons q rest ih =>
      rcases ih _ hd with hput | hrest
      · rcases eq_or_mem_of_mem_put hput with rfl | hmem
        · exact .inr List.mem_cons_self
        · exact .inl hmem
      · exact .inr (List.mem_cons_of_mem _ hrest)
  exact (hfold [] h).resolve_left List.not_mem_nil

theorem rising_ofPairs (pairs : List (String × α)) : (ofPairs pairs).Rising :=
  rising_foldl_put List.Pairwise.nil pairs

theorem perm_ofPairs {pairs : List (String × α)} (h : (pairs.map Prod.fst).Nodup) :
    (ofPairs pairs).Perm pairs :=
  perm_foldl_put h

/-- The dictionary of pairs with different names does not depend on their order. -/
theorem ofPairs_eq_of_perm {pairs others : List (String × α)} (h : (pairs.map Prod.fst).Nodup)
    (hperm : pairs.Perm others) : ofPairs pairs = ofPairs others := by
  have hothers : (others.map Prod.fst).Nodup := (hperm.map Prod.fst).nodup_iff.1 h
  exact (rising_ofPairs pairs).eq_of_perm (rising_ofPairs others)
    ((perm_ofPairs h).trans (hperm.trans (perm_ofPairs hothers).symm))

theorem Rising.ofPairs_eq {d : Dict α} (h : d.Rising) : ofPairs d = d :=
  (rising_ofPairs d).eq_of_perm h (perm_ofPairs h.nodup_names)

theorem get?_eq_some_iff {d : Dict α} (h : d.names.Nodup) {key : String} {value : α} :
    d.get? key = some value ↔ (key, value) ∈ d := by
  refine ⟨mem_of_get?, fun hmem => ?_⟩
  induction d with
  | nil => cases hmem
  | cons p rest ih =>
    obtain ⟨k, v⟩ := p
    obtain ⟨hnot, hrest⟩ := List.nodup_cons.1 h
    rw [get?_cons]
    rcases List.mem_cons.1 hmem with heq | hmem
    · cases heq
      exact if_pos rfl
    · have hkey : key ∈ rest.map Prod.fst := List.mem_map_of_mem hmem
      rw [if_neg fun heq : k = key => hnot (heq ▸ hkey)]
      exact ih hrest hmem

/-- What is read under a name does not depend on the order of pairs with different names. -/
theorem get?_eq_of_perm {d e : Dict α} (h : d.names.Nodup) (hperm : d.Perm e) (key : String) :
    d.get? key = e.get? key := by
  have he : e.names.Nodup := (hperm.map Prod.fst).nodup_iff.1 h
  refine Option.ext fun value => ?_
  rw [get?_eq_some_iff h, get?_eq_some_iff he]
  exact hperm.mem_iff

end WorkflowGraph.Dict
