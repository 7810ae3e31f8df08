import Mathlib.Data.List.Basic
import WorkflowGraph.Text.Blank

/-!
# Patterns with a preferred reading

A pattern reads the start of a text, possibly in several ways. The ways come in the order of
preference of a backtracking matcher: an optional part is taken before it is left out, and a repeated
part is taken as often as possible before it is taken less often (`Pattern.rests`). Three patterns
one behind the other capture what the middle one reads (`Pattern.capture?`): the first way for which
all three read on.

Backtracking is of no use where what stands behind a part that has been given back cannot go on
(`Pattern.Greedy`): then only the most that a part can take counts.
-/

set_option autoImplicit false

namespace WorkflowGraph

/-- A pattern of text. -/
inductive Pattern where
  /-- One character. -/
  | one (accepts : Char → Bool)
  /-- One pattern behind another. -/
  | chain (first second : Pattern)
  /-- A pattern or nothing, the pattern first. -/
  | maybe (inner : Pattern)
  /-- A pattern that takes some text, as often as it can be taken, and then less often. -/
  | many (inner : Pattern)

namespace Pattern

/-- What is left behind at most so many steps, the most steps first. -/
def repeats (step : List Char → List (List Char)) : Nat → List Char → List (List Char)
  | 0, cs => [cs]
  | fuel + 1, cs => (step cs).flatMap (repeats step fuel) ++ [cs]

/-- What is left behind a pattern, for each way in which it reads the start of a text, the preferred
way first. -/
def rests : Pattern → List Char → List (List Char)
  | .one _, [] => []
  | .one accepts, c :: rest => if accepts c then [rest] else []
  | .chain first second, cs => (first.rests cs).flatMap second.rests
  | .maybe inner, cs => inner.rests cs ++ [cs]
  | .many inner, cs => repeats inner.rests cs.length cs

/-- The ways in which three patterns read a text one behind the other: what the middle one reads,
and what is left behind the last one. -/
def captures (front middle back : Pattern) (cs : List Char) : List (List Char × List Char) :=
  (front.rests cs).flatMap fun inside => (middle.rests inside).flatMap fun behind =>
    (back.rests behind).map fun after => (inside.take (inside.length - behind.length), after)

/-- The preferred one of these ways. -/
def capture? (front middle back : Pattern) (cs : List Char) : Option (List Char × List Char) :=
  (captures front middle back cs).head?

/-- A text of its own as a pattern. -/
def literal (c : Char) : List Char → Pattern
  | [] => .one (· == c)
  | d :: more => .chain (.one (· == c)) (literal d more)

variable {accepts stuck : Char → Bool} {inner first second : Pattern} {cs rest best : List Char}
  {c : Char}

theorem rests_one_cons : (one accepts).rests (c :: rest) = if accepts c then [rest] else [] := rfl

@[simp] theorem rests_chain :
    (chain first second).rests cs = (first.rests cs).flatMap second.rests := rfl

@[simp] theorem rests_maybe : (maybe inner).rests cs = inner.rests cs ++ [cs] := rfl

theorem rests_many : (many inner).rests cs = repeats inner.rests cs.length cs := rfl

theorem rests_literal (c : Char) (more cs : List Char) :
    (literal c more).rests cs =
      if (c :: more).isPrefixOf cs then [cs.drop (more.length + 1)] else [] := by
  induction more generalizing c cs with
  | nil =>
    cases cs with
    | nil => rfl
    | cons d rest =>
      rw [literal, rests_one_cons]
      by_cases h : d = c
      · simp [h]
      · simp [h, Ne.symm h]
  | cons d more ih =>
    rw [literal, rests_chain]
    cases cs with
    | nil => rfl
    | cons e rest =>
      rw [rests_one_cons]
      by_cases h : e = c
      · simp [h, ih]
      · simp [h, Ne.symm h]

theorem suffix_of_mem_repeats {step : List Char → List (List Char)} {fuel : Nat}
    (hstep : ∀ cs, ∀ rest ∈ step cs, rest <:+ cs) (h : rest ∈ repeats step fuel cs) :
    rest <:+ cs := by
  induction fuel generalizing cs with
  | zero =>
    obtain rfl := List.mem_singleton.1 h
    exact List.suffix_rfl
  | succ fuel ih =>
    rcases List.mem_append.1 h with hmore | hself
    · obtain ⟨next, hnext, hrest⟩ := List.mem_flatMap.1 hmore
      exact (ih hrest).trans (hstep cs next hnext)
    · obtain rfl := List.mem_singleton.1 hself
      exact List.suffix_rfl

/-- What is left behind a pattern is the end of the text. -/
theorem suffix_of_mem_rests {p : Pattern} (h : rest ∈ p.rests cs) : rest <:+ cs := by
  induction p generalizing cs rest with
  | one accepts =>
    cases cs with
    | nil => cases h
    | cons c more =>
      rw [rests_one_cons] at h
      split at h
      · rw [List.mem_singleton.1 h]
        exact List.suffix_cons c more
      · cases h
  | chain first second hfirst hsecond =>
    obtain ⟨next, hnext, hrest⟩ := List.mem_flatMap.1 h
    exact (hsecond hrest).trans (hfirst hnext)
  | maybe inner ih =>
    rcases List.mem_append.1 h with hinner | hself
    · exact ih hinner
    · obtain rfl := List.mem_singleton.1 hself
      exact List.suffix_rfl
  | many inner ih => exact suffix_of_mem_repeats (fun _ _ hstep => ih hstep) h

/-! ## The most that a pattern can take -/

/-- Whether one rest is preferred, and all others start with a character of a kind that nothing goes
on with. -/
def Greedy (stuck : Char → Bool) (best : List Char) (rests : List (List Char)) : Prop :=
  ∃ others, rests = best :: others ∧ ∀ other ∈ others, ∃ c rest, other = c :: rest ∧ stuck c

theorem greedy_single (stuck : Char → Bool) (best : List Char) : Greedy stuck best [best] :=
  ⟨[], rfl, by simp⟩

theorem Greedy.mono {stuck' : Char → Bool} {rests : List (List Char)} (h : Greedy stuck best rests)
    (hmono : ∀ c, stuck c → stuck' c) : Greedy stuck' best rests := by
  obtain ⟨others, hrests, hothers⟩ := h
  refine ⟨others, hrests, fun other hother => ?_⟩
  obtain ⟨c, rest, heq, hc⟩ := hothers other hother
  exact ⟨c, rest, heq, hmono c hc⟩

/-- **Nothing is gained by giving back**: where no rest goes on but the preferred one, only that one
counts. -/
theorem Greedy.flatMap_eq {α : Type} {rests : List (List Char)} {next : List Char → List α}
    (h : Greedy stuck best rests) (hnext : ∀ c rest, stuck c → next (c :: rest) = []) :
    rests.flatMap next = next best := by
  obtain ⟨others, rfl, hothers⟩ := h
  have hnone : others.flatMap next = [] := by
    apply List.flatMap_eq_nil_iff.2
    intro other hother
    obtain ⟨c, rest, rfl, hc⟩ := hothers other hother
    exact hnext c rest hc
  rw [List.flatMap_cons, hnone, List.append_nil]

/-- A greedy part with a part behind it that does not move where the first one has given back. -/
theorem Greedy.flatMap {given : Char → Bool} {rests : List (List Char)}
    {next : List Char → List (List Char)} {last : List Char} (h : Greedy given best rests)
    (hbest : Greedy stuck last (next best)) (hgiven : ∀ c, given c → stuck c)
    (hnext : ∀ c rest, given c → next (c :: rest) = [c :: rest]) :
    Greedy stuck last (rests.flatMap next) := by
  obtain ⟨others, rfl, hothers⟩ := h
  obtain ⟨more, hmore, hstuck⟩ := hbest
  have hsame : others.flatMap next = others := by
    induction others with
    | nil => rfl
    | cons other others ih =>
      obtain ⟨⟨c, rest, rfl, hc⟩, hrest⟩ := List.forall_mem_cons.1 hothers
      rw [List.flatMap_cons, hnext c rest hc, ih hrest, List.singleton_append]
  refine ⟨more ++ others, ?_, ?_⟩
  · rw [List.flatMap_cons, hmore, hsame, List.cons_append]
  · intro other hother
    rcases List.mem_append.1 hother with h | h
    · exact hstuck other h
    · obtain ⟨c, rest, heq, hc⟩ := hothers other h
      exact ⟨c, rest, heq, hgiven c hc⟩

/-- Behind a greedy part, the text that has been given back as a whole is a further way. -/
theorem Greedy.concat {rests : List (List Char)} (h : Greedy stuck best rests) (hc : stuck c) :
    Greedy stuck best (rests ++ [c :: rest]) := by
  obtain ⟨others, rfl, hothers⟩ := h
  refine ⟨others ++ [c :: rest], rfl, fun other hother => ?_⟩
  rcases List.mem_append.1 hother with h | h
  · exact hothers other h
  · exact ⟨c, rest, List.mem_singleton.1 h, hc⟩

theorem repeats_of_nil {step : List Char → List (List Char)} (h : step cs = []) (fuel : Nat) :
    repeats step fuel cs = [cs] := by
  cases fuel with
  | zero => rfl
  | succ fuel => simp [repeats, h]

/-- A repeated character takes all that it can. -/
theorem greedy_repeats_one {fuel : Nat} (hfuel : cs.length ≤ fuel) :
    Greedy accepts (cs.dropWhile accepts) (repeats (one accepts).rests fuel cs) := by
  induction fuel generalizing cs with
  | zero =>
    obtain rfl := List.length_eq_zero_iff.1 (Nat.le_zero.1 hfuel)
    exact greedy_single _ _
  | succ fuel ih =>
    cases cs with
    | nil => exact greedy_single _ _
    | cons c rest =>
      by_cases hc : accepts c
      · have hrest : Greedy accepts (rest.dropWhile accepts)
            (repeats (one accepts).rests fuel rest) := ih (Nat.le_of_succ_le_succ hfuel)
        rw [List.dropWhile_cons_of_pos hc, repeats, rests_one_cons, if_pos hc,
          List.flatMap_singleton]
        exact hrest.concat hc
      · rw [List.dropWhile_cons_of_neg hc, repeats_of_nil (by simp [rests_one_cons, hc])]
        exact greedy_single _ _

theorem greedy_many_one (accepts : Char → Bool) (cs : List Char) :
    Greedy accepts (cs.dropWhile accepts) ((many (one accepts)).rests cs) := by
  rw [rests_many]
  exact greedy_repeats_one (Nat.le_refl _)

end Pattern

end WorkflowGraph
