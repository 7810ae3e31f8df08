import WorkflowGraph.Text.Blank

/-!
# Splitting and joining texts

A text that has been joined from parts without the separator is split into the same parts again
(`Text.split_intercalate`), and a start that has been recognised is followed by the rest of the
text (`Text.after?_eq_some_iff`). Digits are added up to the number that they write
(`Text.foldl_digits`).
-/

set_option autoImplicit false

namespace WorkflowGraph.Text

theorem splitList_of_not_mem {sep : Char} {cs : List Char} (h : sep ∉ cs) :
    splitList sep cs = [cs] := by
  induction cs with
  | nil => rfl
  | cons c rest ih =>
    obtain ⟨hc, hrest⟩ := not_or.1 (mt List.mem_cons.2 h)
    rw [splitList, if_neg (Ne.symm hc), ih hrest]

theorem splitList_ne_nil (sep : Char) (cs : List Char) : splitList sep cs ≠ [] := by
  fun_cases splitList sep cs <;> simp_all

theorem split_ne_nil (sep : Char) (s : String) : split sep s ≠ [] := by
  rw [split, Ne, List.map_eq_nil_iff]
  exact splitList_ne_nil sep s.toList

theorem not_mem_of_mem_splitList {sep : Char} {cs : List Char} :
    ∀ part ∈ splitList sep cs, sep ∉ part := by
  fun_induction splitList sep cs with
  | case1 => simp
  | case2 rest ih => exact List.forall_mem_cons.2 ⟨List.not_mem_nil, ih⟩
  | case3 c rest hne hnil ih => simpa using Ne.symm hne
  | case4 c rest hne first more hmore ih =>
    rw [hmore] at ih
    obtain ⟨hfirst, hrest⟩ := List.forall_mem_cons.1 ih
    refine List.forall_mem_cons.2 ⟨fun hmem => ?_, hrest⟩
    rcases List.mem_cons.1 hmem with heq | hmem
    · exact hne heq.symm
    · exact hfirst hmem

theorem not_mem_of_mem_split {sep : Char} {s : String} :
    ∀ part ∈ split sep s, sep ∉ part.toList := by
  intro part hpart
  obtain ⟨cs, hcs, rfl⟩ := List.mem_map.1 hpart
  rw [String.toList_ofList]
  exact not_mem_of_mem_splitList cs hcs

/-- What stands before a separator and what stands behind it are split each on its own. -/
theorem splitList_append (sep : Char) (front back : List Char) :
    splitList sep (front ++ sep :: back) = splitList sep front ++ splitList sep back := by
  induction front with
  | nil => simp [splitList]
  | cons c rest ih =>
    rw [List.cons_append, splitList, splitList, ih]
    split
    · rfl
    · cases hrest : splitList sep rest with
      | nil => exact absurd hrest (splitList_ne_nil sep rest)
      | cons first more => rfl

/-- Of two texts one behind the other the last part of the first one and the first part of the
second one are joined. -/
theorem splitList_append_of_eq {sep : Char} {front back last first : List Char}
    {init rest : List (List Char)} (hfront : splitList sep front = init ++ [last])
    (hback : splitList sep back = first :: rest) :
    splitList sep (front ++ back) = init ++ (last ++ first) :: rest := by
  induction front generalizing init last with
  | nil =>
    obtain ⟨rfl, rfl⟩ : init = [] ∧ last = [] := by
      cases init <;> simp_all [splitList]
    simpa using hback
  | cons c cs ih =>
    rw [List.cons_append, splitList]
    rw [splitList] at hfront
    obtain ⟨more, tail, hcs⟩ :=
      (List.eq_nil_or_concat (splitList sep cs)).resolve_left (splitList_ne_nil sep cs)
    rw [List.concat_eq_append] at hcs
    rw [ih hcs]
    rw [hcs] at hfront
    split at hfront
    · next hc =>
      rw [← List.cons_append] at hfront
      obtain ⟨rfl, hlast⟩ := List.append_inj' hfront rfl
      cases hlast
      rw [if_pos hc]
      rfl
    · next hc =>
      rw [if_neg hc]
      cases more with
      | nil =>
        have hparts : [] ++ [c :: tail] = init ++ [last] := hfront
        obtain ⟨rfl, hlast⟩ := List.append_inj' hparts rfl
        cases hlast
        rfl
      | cons second more =>
        have hparts : ((c :: second) :: more) ++ [tail] = init ++ [last] := hfront
        obtain ⟨rfl, hlast⟩ := List.append_inj' hparts rfl
        cases hlast
        rfl

theorem split_of_not_mem {sep : Char} {s : String} (h : sep ∉ s.toList) : split sep s = [s] := by
  rw [split, splitList_of_not_mem h, List.map_singleton, String.ofList_toList]

theorem split_append_of_eq {sep : Char} {front back last first : String} {init rest : List String}
    (hfront : split sep front = init ++ [last]) (hback : split sep back = first :: rest) :
    split sep (front ++ back) = init ++ (last ++ first) :: rest := by
  have hlist {s : String} {parts : List String} (h : split sep s = parts) :
      splitList sep s.toList = parts.map String.toList := by
    rw [← h, split, List.map_map]
    simp
  have hparts := splitList_append_of_eq (by simpa using hlist hfront) (by simpa using hlist hback)
  rw [split, String.toList_append, hparts]
  simp

theorem split_append (sep : Char) (front back : String) :
    split sep (front ++ String.singleton sep ++ back) = split sep front ++ split sep back := by
  rw [split, String.toList_append, String.toList_append, String.toList_singleton,
    List.append_assoc, List.singleton_append, splitList_append, List.map_append, split, split]

/-- Parts without the separator are found again where they have been joined by it. -/
theorem split_intercalate {sep : Char} {parts : List String} (hne : parts ≠ [])
    (h : ∀ s ∈ parts, sep ∉ s.toList) :
    split sep (String.intercalate (String.singleton sep) parts) = parts := by
  induction parts with
  | nil => exact absurd rfl hne
  | cons first rest ih =>
    obtain ⟨hfirst, hrest⟩ := List.forall_mem_cons.1 h
    by_cases hnil : rest = []
    · subst hnil
      rw [String.intercalate_singleton, split_of_not_mem hfirst]
    · rw [String.intercalate_cons_of_ne_nil hnil, split_append, split_of_not_mem hfirst,
        ih hnil hrest]
      rfl

theorem afterList?_eq_some_iff {start cs rest : List Char} :
    afterList? start cs = some rest ↔ cs = start ++ rest := by
  induction start generalizing cs with
  | nil => simp [afterList?, eq_comm]
  | cons c more ih =>
    cases cs with
    | nil => simp [afterList?]
    | cons c' cs =>
      rw [afterList?]
      split
      · next heq => simp [ih, heq]
      · next hne => simp [Ne.symm hne]

theorem after?_eq_some_iff {start s rest : String} :
    after? start s = some rest ↔ s = start ++ rest := by
  rw [after?, Option.map_eq_some_iff]
  constructor
  · rintro ⟨cs, hcs, rfl⟩
    rw [← String.toList_inj, String.toList_append, String.toList_ofList]
    exact afterList?_eq_some_iff.1 hcs
  · rintro rfl
    exact ⟨rest.toList, afterList?_eq_some_iff.2 String.toList_append, String.ofList_toList⟩

theorem foldl_digits (cs : List Char) :
    cs.foldl (fun n c => n * 10 + (c.toNat - 48)) 0 = Nat.ofDigitChars 10 cs 0 := by
  have hstep : (fun n c => n * 10 + (Char.toNat c - 48)) =
      fun n c => 10 * n + (Char.toNat c - '0'.toNat) := by
    funext n c
    rw [Nat.mul_comm]
    rfl
  rw [hstep, ← Nat.ofDigitChars_eq_foldl]

/-! ## Bytes -/

theorem toByteArray_eq (s : String) :
    s.toByteArray = (s.toList.flatMap String.utf8EncodeChar).toByteArray := by
  conv => lhs; rw [← String.ofList_toList (s := s), String.toByteArray_ofList, List.utf8Encode]

theorem utf8Size_of_lt {c : Char} (h : c.toNat < 128) : c.utf8Size = 1 := by
  rw [Char.utf8Size_eq_one_iff, UInt32.le_iff_toNat_le]
  exact Nat.le_of_lt_succ h

end WorkflowGraph.Text
