import WorkflowGraph.Node.Map

/-!
# The threads of graphs inside graphs

A graph inside a node runs on a thread below the one around it, whose id it extends behind a
slash. The tasks of a map run on threads with the index of their item in brackets. So where no
subgraph has a bracket in its id, the threads of subgraphs are never those of tasks.
-/

set_option autoImplicit false

namespace WorkflowGraph.Thread

/-- Whether a thread is below another one. -/
def Inside (outer thread : String) : Prop := ∃ rest, thread = outer ++ "/" ++ rest

theorem inside_childThread (scope : Scope) (segment : String) :
    Inside scope.thread (scope.childThread segment) :=
  ⟨segment, rfl⟩

theorem Inside.trans {outer middle thread : String} (h : Inside outer middle)
    (h' : Inside middle thread) : Inside outer thread := by
  obtain ⟨first, rfl⟩ := h
  obtain ⟨second, rfl⟩ := h'
  exact ⟨first ++ "/" ++ second, by simp only [String.append_assoc]⟩

theorem not_inside_self (thread : String) : ¬ Inside thread thread := by
  rintro ⟨rest, h⟩
  have hlength := congrArg String.length h
  simp only [String.length_append] at hlength
  have : ("/" : String).length = 1 := rfl
  omega

/-- A thread below another one has a name. -/
theorem Inside.ne_empty {outer thread : String} (h : Inside outer thread) : thread ≠ "" := by
  rintro rfl
  obtain ⟨rest, h⟩ := h
  have hlength := congrArg String.length h
  simp only [String.length_append, String.length_empty] at hlength
  have : ("/" : String).length = 1 := rfl
  omega

theorem append_left_cancel {start first second : String} (h : start ++ first = start ++ second) :
    first = second := by
  have hlist := congrArg String.toList h
  rw [String.toList_append, String.toList_append] at hlist
  exact String.toList_inj.1 (List.append_cancel_left hlist)

/-- Whether a thread extends a root without any bracket, so that no map lies on the way. -/
def Direct (root thread : String) : Prop := ∃ rest, thread = root ++ rest ∧ '[' ∉ rest.toList

theorem direct_self (root : String) : Direct root root :=
  ⟨"", by simp, by simp⟩

theorem Direct.child {root thread id : String} (h : Direct root thread)
    (hid : '[' ∉ id.toList) : Direct root (thread ++ "/" ++ id) := by
  obtain ⟨rest, hrest, hfree⟩ := h
  refine ⟨rest ++ "/" ++ id, ?_, ?_⟩
  · rw [hrest]
    simp only [String.append_assoc]
  · simp only [String.toList_append, List.mem_append]
    rintro ((h | h) | h)
    · exact hfree h
    · revert h
      decide
    · exact hid h

/-- Nothing below the thread of a map task is direct. -/
theorem not_direct_of_inside_task {root id thread : String} {scope : Scope} {index : Nat}
    (h : Direct root scope.thread) (hin : Inside (MapNode.taskScope id scope index).thread thread) :
    ¬ Direct root thread := by
  obtain ⟨rest, hrest, _⟩ := h
  obtain ⟨inner, rfl⟩ := hin
  rintro ⟨other, hother, hfree⟩
  apply hfree
  have hsame : other = rest ++ ("/" ++ s!"{id}[{index}]" ++ ("/" ++ inner)) := by
    refine @append_left_cancel root _ _ ?_
    rw [← hother]
    unfold MapNode.taskScope Scope.child Scope.childThread
    dsimp only
    rw [hrest]
    simp only [String.append_assoc]
  rw [hsame]
  simp only [String.toList_append, List.mem_append]
  refine .inr (.inl (.inr (.inl (.inl (.inr ?_)))))
  decide

/-- What stands in front of the first character that it does not hold is given by the whole. -/
theorem eq_of_append_cons {c : Char} {xs ys as bs : List Char} (hx : c ∉ xs) (hy : c ∉ ys)
    (h : xs ++ c :: as = ys ++ c :: bs) : xs = ys := by
  rcases List.append_eq_append_iff.1 h with ⟨more, rfl, hmore⟩ | ⟨more, rfl, hmore⟩
  · cases more with
    | nil => simp
    | cons d more =>
      obtain ⟨rfl, _⟩ := List.cons.inj hmore
      simp at hy
  · cases more with
    | nil => simp
    | cons d more =>
      obtain ⟨rfl, _⟩ := List.cons.inj hmore
      simp at hx

/-- The threads below two tasks of a map are never the same: an index has no bracket in it, so that
the one behind it ends the index. -/
theorem eq_of_inside_tasks {id thread : String} {scope : Scope} {i j : Nat}
    (hi : Inside (MapNode.taskScope id scope i).thread thread)
    (hj : Inside (MapNode.taskScope id scope j).thread thread) : i = j := by
  obtain ⟨first, hfirst⟩ := hi
  obtain ⟨second, hsecond⟩ := hj
  have hparts (n : Nat) (rest : String) : (MapNode.taskScope id scope n).thread ++ "/" ++ rest =
      (scope.thread ++ "/" ++ id ++ "[") ++ (n.repr ++ ("]" ++ ("/" ++ rest))) := by
    show scope.thread ++ "/" ++ (toString id ++ "[" ++ toString n ++ "]") ++ "/" ++ rest = _
    simp only [String.append_assoc]
    rfl
  have hrepr (n : Nat) : n.repr.toList = Nat.toDigits 10 n := by
    rw [Nat.repr_eq_ofList_toDigits, String.toList_ofList]
  have hdigits (n : Nat) : ']' ∉ Nat.toDigits 10 n := by
    intro hmem
    have hdigit := Nat.isDigit_of_mem_toDigits (by decide) (by decide) hmem
    revert hdigit
    decide
  have hsame := append_left_cancel ((hparts i first).symm.trans
    (hfirst.symm.trans (hsecond.trans (hparts j second))))
  have hlist := congrArg String.toList hsame
  simp only [String.toList_append, hrepr] at hlist
  have hindex := eq_of_append_cons (hdigits i) (hdigits j) hlist
  rw [← @Nat.ofDigitChars_toDigits 10 i (by decide) (by decide), hindex,
    Nat.ofDigitChars_toDigits (by decide) (by decide)]

theorem inside_of_toList {outer thread : String} {rest : List Char}
    (h : thread.toList = outer.toList ++ '/' :: rest) : Inside outer thread := by
  refine ⟨String.ofList rest, String.toList_inj.1 ?_⟩
  rw [h]
  simp only [String.toList_append, String.toList_ofList, List.append_assoc]
  rfl

/-- Where two threads, or threads below them, are the same, one of the two is below the other one or
they are the same themselves. -/
theorem nested_of_common {first second thread : String}
    (hfirst : thread = first ∨ Inside first thread)
    (hsecond : thread = second ∨ Inside second thread) :
    first = second ∨ Inside first second ∨ Inside second first := by
  rcases hfirst with rfl | ⟨rest, hrest⟩
  · rcases hsecond with rfl | hsecond
    · exact .inl rfl
    · exact .inr (.inr hsecond)
  · rcases hsecond with rfl | ⟨other, hother⟩
    · exact .inr (.inl ⟨rest, hrest⟩)
    · have hlist := congrArg String.toList (hrest.symm.trans hother)
      simp only [String.toList_append, List.append_assoc] at hlist
      rcases List.append_eq_append_iff.1 hlist with ⟨more, hmore, hsame⟩ | ⟨more, hmore, hsame⟩
      · cases more with
        | nil =>
          rw [List.append_nil] at hmore
          exact .inl (String.toList_inj.1 hmore.symm)
        | cons c more =>
          obtain ⟨rfl, _⟩ := List.cons.inj hsame
          exact .inr (.inl (inside_of_toList hmore))
      · cases more with
        | nil =>
          rw [List.append_nil] at hmore
          exact .inl (String.toList_inj.1 hmore)
        | cons c more =>
          obtain ⟨rfl, _⟩ := List.cons.inj hsame
          exact .inr (.inr (inside_of_toList hmore))

end WorkflowGraph.Thread
