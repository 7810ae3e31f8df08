import WorkflowGraph.Checkpoint.Folder
import WorkflowGraph.Proofs.Text
import WorkflowGraph.Proofs.Text.Percent

/-!
# Names of checkpoint files

The file of a step bears the number of this step, however many digits it has
(`FolderStore.stepOf?_fileName`), so no two steps have one file (`FolderStore.fileName_inj`). The
names of these files have dots, which tells them from the names of threads.
-/

set_option autoImplicit false

namespace WorkflowGraph.FolderStore

/-! ## The numbers of steps -/

/-- The digits of a step, with the zeros in front of them. -/
def stepDigits (step : Nat) : List Char :=
  List.replicate (8 - (toString step).length) '0' ++ Nat.toDigits 10 step

theorem toList_stepText (step : Nat) : (stepText step).toList = stepDigits step := by
  rw [stepText, String.toList_append, String.toList_ofList, stepDigits,
    Nat.toString_eq_ofList_toDigits, String.toList_ofList]

theorem isDigit_of_mem_stepDigits {step : Nat} {c : Char} (h : c ∈ stepDigits step) :
    c.isDigit = true := by
  rcases List.mem_append.1 h with h | h
  · rw [List.eq_of_mem_replicate h]
    rfl
  · exact Nat.isDigit_of_mem_toDigits (by decide) (by decide) h

theorem stepDigits_ne_nil (step : Nat) : stepDigits step ≠ [] := by
  intro h
  exact Nat.toDigits_ne_nil (List.append_eq_nil_iff.1 h).2

/-- The zeros in front change no number. -/
theorem ofDigitChars_stepDigits (step : Nat) : Nat.ofDigitChars 10 (stepDigits step) 0 = step := by
  rw [stepDigits, Nat.ofDigitChars_append, Nat.ofDigitChars_replicate_zero, Nat.mul_zero,
    Nat.ofDigitChars_ten_toDigits]

theorem stepText_inj {m n : Nat} : stepText m = stepText n ↔ m = n := by
  constructor
  · intro h
    have hdigits : stepDigits m = stepDigits n := by
      rw [← toList_stepText, ← toList_stepText, h]
    rw [← ofDigitChars_stepDigits m, hdigits, ofDigitChars_stepDigits]
  · exact congrArg stepText

theorem not_mem_stepText {c : Char} (h : c.isDigit = false) (step : Nat) :
    c ∉ (stepText step).toList := by
  rw [toList_stepText]
  intro hmem
  rw [isDigit_of_mem_stepDigits hmem] at h
  cases h

theorem foldl_stepDigits (step : Nat) :
    (stepDigits step).foldl (fun n c => n * 10 + (c.toNat - 48)) 0 = step := by
  rw [Text.foldl_digits, ofDigitChars_stepDigits]

theorem index?_stepText {step : Nat} (h : step < UInt64.size) : index? (stepText step) = some step := by
  have hempty : (stepDigits step).isEmpty = false := by
    rw [Bool.eq_false_iff, Ne, List.isEmpty_iff]
    exact stepDigits_ne_nil step
  have hall : (stepDigits step).all (fun c => decide ('0' ≤ c) && decide (c ≤ '9')) = true := by
    rw [List.all_eq_true]
    intro c hc
    have hdigit := isDigit_of_mem_stepDigits hc
    rw [Char.isDigit, Bool.and_eq_true, decide_eq_true_eq, decide_eq_true_eq] at hdigit
    rw [Bool.and_eq_true, decide_eq_true_eq, decide_eq_true_eq]
    exact hdigit
  unfold index?
  extract_lets digits n
  have hdigits : digits = stepDigits step := by
    simp only [digits]
    rw [toList_stepText]
    split
    · next rest hplus =>
      -- A plus sign is no digit.
      have hmem : '+' ∈ stepDigits step := by
        rw [hplus]
        exact List.mem_cons_self
      have hdigit : '+'.isDigit = true := isDigit_of_mem_stepDigits hmem
      cases hdigit
    · rfl
  have hn : n = step := by
    simp only [n]
    rw [hdigits, foldl_stepDigits]
  rw [hdigits, hempty, hall, if_neg (by simp), hn, if_pos (Nat.le_of_lt_succ h)]

/-! ## The names of files -/

/-- What the names of a store's files end with. -/
def nameEnd (f : FolderStore) : String := if f.compression then "json.zst" else "json"

theorem fileName_eq (f : FolderStore) (step : Nat) :
    f.fileName step = nameStart ++ stepText step ++ "." ++ f.nameEnd := by
  unfold fileName nameEnd
  split
  · rw [show ".json.zst" = "." ++ "json.zst" from rfl, ← String.append_assoc]
  · rw [show ".json" = "." ++ "json" from rfl, ← String.append_assoc]

theorem draftName_eq (step : Nat) : draftName step = nameStart ++ stepText step ++ "." ++ "tmp" := by
  rw [draftName, show draftEnd = "." ++ "tmp" from rfl, ← String.append_assoc]

theorem fileName_inj (f : FolderStore) {m n : Nat} : f.fileName m = f.fileName n ↔ m = n := by
  rw [fileName_eq, fileName_eq, String.append_left_inj, String.append_left_inj,
    String.append_right_inj, stepText_inj]

theorem dot_mem_fileName (f : FolderStore) (step : Nat) : '.' ∈ (f.fileName step).toList := by
  rw [fileName_eq]
  simp

theorem dot_mem_draftName (step : Nat) : '.' ∈ (draftName step).toList := by
  rw [draftName_eq]
  simp

theorem slash_not_mem_fileName (f : FolderStore) (step : Nat) :
    '/' ∉ (f.fileName step).toList := by
  have hstep := not_mem_stepText (c := '/') rfl step
  rw [fileName_eq, nameEnd]
  simp only [String.toList_append, List.mem_append, not_or]
  refine ⟨⟨⟨by decide, hstep⟩, by decide⟩, ?_⟩
  split
  · decide
  · decide

/-- The names of files have no percent signs, so they stand for themselves as texts. -/
theorem decode?_fileName (f : FolderStore) (step : Nat) :
    Text.Percent.decode? (f.fileName step) = some (f.fileName step) := by
  have hstart : ∀ c ∈ nameStart.toList, c.toNat < 128 ∧ c ≠ '%' := by simp [nameStart]
  have hend : ∀ c ∈ f.nameEnd.toList, c.toNat < 128 ∧ c ≠ '%' := by
    rw [nameEnd]
    split
    · simp
    · simp
  apply Text.Percent.decode?_of_plain
  intro c hc
  rw [fileName_eq] at hc
  simp only [String.toList_append, List.mem_append, toList_stepText] at hc
  rcases hc with ((hc | hc) | hc) | hc
  · exact hstart c hc
  · have hdigit := isDigit_of_mem_stepDigits hc
    refine ⟨Nat.lt_of_le_of_lt (Char.isDigit_iff_toNat.1 hdigit).2 (by decide), ?_⟩
    rintro rfl
    cases hdigit
  · cases List.mem_singleton.1 hc
    decide
  · exact hend c hc

theorem endsWith_draftEnd_fileName (f : FolderStore) (step : Nat) :
    (f.fileName step).endsWith draftEnd = false := by
  rw [Bool.eq_false_iff, Ne, String.endsWith_eq_endsWith_toSlice,
    String.Slice.endsWith_string_iff, String.copy_toSlice]
  rintro ⟨front, h⟩
  have hlast := congrArg List.getLast? h
  have hdraft : draftEnd.toList.getLast? = some 'p' := by decide
  rw [fileName_eq, nameEnd, String.toList_append, List.getLast?_append, List.getLast?_append,
    hdraft] at hlast
  split at hlast
  · have hend : "json.zst".toList.getLast? = some 't' := by decide
    rw [hend] at hlast
    cases hlast
  · have hend : "json".toList.getLast? = some 'n' := by decide
    rw [hend] at hlast
    cases hlast

theorem endsWith_draftEnd_draftName (step : Nat) : (draftName step).endsWith draftEnd = true := by
  rw [String.endsWith_eq_endsWith_toSlice, String.Slice.endsWith_string_iff, String.copy_toSlice,
    draftName, String.toList_append]
  exact List.suffix_append _ _

theorem fileName_ne_draftName (f : FolderStore) (step draft : Nat) :
    f.fileName step ≠ draftName draft := by
  intro h
  have hend := f.endsWith_draftEnd_fileName step
  rw [h, endsWith_draftEnd_draftName] at hend
  cases hend

/-- **The file of a step bears the number of the step.** -/
theorem stepOf?_fileName (f : FolderStore) {step : Nat} (h : step < UInt64.size) :
    stepOf? (f.fileName step) = some step := by
  have hafter : Text.after? nameStart (f.fileName step) =
      some (stepText step ++ "." ++ f.nameEnd) := by
    rw [Text.after?_eq_some_iff, fileName_eq, String.append_assoc, String.append_assoc,
      String.append_assoc]
  have hparts : Text.split '.' (stepText step ++ "." ++ f.nameEnd) =
      stepText step :: Text.split '.' f.nameEnd := by
    rw [← List.singleton_append, ← Text.split_of_not_mem (not_mem_stepText (c := '.') rfl step)]
    exact Text.split_append '.' _ _
  rw [stepOf?, endsWith_draftEnd_fileName, if_neg (by simp), hafter, Option.bind_some, hparts]
  exact index?_stepText h

end WorkflowGraph.FolderStore
