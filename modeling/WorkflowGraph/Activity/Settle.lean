import WorkflowGraph.Activity.World

/-!
# Letting a crew go on

`World.settle` lets the tasks under way go on until a moment comes, or until the tasks of a
group are done. It ends: a strand whose turn it is comes closer to the end of its activity,
or falls asleep again where it has been woken for nothing; and the clock only moves to a
moment at which a strand goes on.
-/

set_option autoImplicit false

namespace WorkflowGraph.World

variable {σ : Type}

/-- Put strands between others. -/
def put (w : World σ) (front strands back : List Strand) : World σ :=
  { w with crew := { w.crew with strands := front ++ strands ++ back } }

/-- A strand between others goes on with an activity until it has to wait. The tasks that it
starts stand in front of it. -/
def goOn (h : Host σ) (w : World σ) (front : List Strand) (s : Strand) (back : List Strand)
    (p : Activity NodeRun) : World σ :=
  let (halt, w) := p.advance h (w.put [] [] [])
  let started := w.crew.strands
  let noted : World σ := { w with crew := { w.crew with count := w.crew.count + 1 } }
  match halt with
  | .finished run =>
    let w := w.put front started back
    { w with crew := w.crew.finish w.clock s.group s.index run }
  | .paused span rest =>
    let turn : Turn := ⟨w.clock + span, w.crew.count⟩
    noted.put front (started ++ [{ s with stage := .due turn true, rest }]) back
  | .joined group span rest =>
    let alarm : Option Turn := span.map fun n => ⟨w.clock + n, w.crew.count⟩
    noted.put front (started ++ [{ s with stage := .joined group w.clock alarm none, rest }]) back

/-- A strand between others takes its turn. -/
def turn (h : Host σ) (w : World σ) (front : List Strand) (s : Strand) (back : List Strand) :
    World σ :=
  match s.stage with
  | .due _ true => w.goOn h front s back s.rest
  | .due _ false =>
    if w.crew.hasPlace s.group then
      { w with crew := w.crew.takePlace s.group }.goOn h front s back s.rest
    else w.put front [{ s with stage := .held }] back
  | .held => w
  | .joined group since alarm _ =>
    match w.crew.results? group with
    | some runs => w.goOn h front s back (s.rest.answered (some runs) (w.clock - since))
    | none =>
      if (Turn.come? w.clock alarm).isSome then
        w.goOn h front s back (s.rest.answered none (w.clock - since))
      else w.put front [{ s with stage := .joined group since alarm none }] back

/-- Whether less is left to do in the first world than in the second one: an activity has been
replaced by activities below it, or a strand is closer to the next step of its own. -/
def Less (v w : World σ) : Prop :=
  Activity.Replaced (Crew.trees v.crew.strands) (Crew.trees w.crew.strands) ∨
    Crew.trees v.crew.strands = Crew.trees w.crew.strands ∧
      Crew.weight v.clock v.crew.strands < Crew.weight w.clock w.crew.strands

theorem Less.lex {v w : World σ} (h : Less v w) :
    Prod.Lex WellFoundedRelation.rel WellFoundedRelation.rel
      ((⟨Crew.trees v.crew.strands⟩ : Activity.Trees), Crew.weight v.clock v.crew.strands)
      ((⟨Crew.trees w.crew.strands⟩ : Activity.Trees), Crew.weight w.clock w.crew.strands) := by
  rcases h with h | ⟨he, hw⟩
  · exact .left _ _ h
  · rw [he]
    exact .right _ hw

/-- Less is left to do where a strand has been replaced by strands below it. -/
theorem less_of_below {v w : World σ} {front back : List Strand} {s : Strand}
    (hw : w.crew.strands = front ++ s :: back) (qs : List Strand)
    (hv : Crew.trees v.crew.strands = Crew.trees (front ++ qs ++ back))
    (hq : ∀ t ∈ Crew.trees qs, Activity.Below t ⟨NodeRun, s.rest⟩) : Less v w := by
  refine .inl ?_
  rw [hv, hw]
  simp only [Crew.trees_append, Crew.trees_cons]
  exact .intro _ _ _ _ hq

/-- A strand that goes on leaves less to do, where it goes on below its activity, or with its
activity itself when it has not waited for a group before. -/
theorem goOn_less (h : Host σ) (w v : World σ) (front : List Strand) (s : Strand)
    (back : List Strand) (p : Activity NodeRun) (hv : v.crew.strands = front ++ s :: back)
    (hclock : v.clock = w.clock)
    (hp : Activity.Below ⟨NodeRun, p⟩ ⟨NodeRun, s.rest⟩ ∨
      p = s.rest ∧ (3 < s.stage.weight w.clock ∨ ∀ g span k, p ≠ .join g span k)) :
    Less (w.goOn h front s back p) v := by
  have below {t : Activity.Tree} (ht : Activity.Below t ⟨NodeRun, p⟩) :
      Activity.Below t ⟨NodeRun, s.rest⟩ := by
    rcases hp with hp | ⟨rfl, _⟩
    · exact ht.trans hp
    · exact ht
  rcases p.advance_moved h (w.put [] [] []) with ⟨_, hr, started, hs, hb⟩ | ⟨g, span, k, hk, hr⟩
  · have hs : (p.advance h (w.put [] [] [])).2.crew.strands = started := hs
    have hb (t : Activity.Tree) (ht : t ∈ Crew.trees started) := below (hb t ht)
    unfold goOn
    cases hh : (p.advance h (w.put [] [] [])).1 with
    | finished run =>
      refine less_of_below hv started ?_ hb
      simp only [hh, hs]
      exact Crew.trees_finish _ _ _ _ _
    | paused n rest =>
      rw [hh] at hr
      refine less_of_below hv (started ++ [{ s with rest }]) ?_ ?_
      · simp only [hh, hs]
        simp [put, Crew.trees]
      · intro t ht
        simp only [Crew.trees_append, List.mem_append] at ht
        rcases ht with ht | ht
        · exact hb t ht
        · obtain rfl := List.mem_singleton.1 ht
          exact below hr
    | joined group n rest =>
      rw [hh] at hr
      refine less_of_below hv (started ++ [{ s with rest }]) ?_ ?_
      · simp only [hh, hs]
        simp [put, Crew.trees]
      · intro t ht
        simp only [Crew.trees_append, List.mem_append] at ht
        rcases ht with ht | ht
        · exact hb t ht
        · obtain rfl := List.mem_singleton.1 ht
          exact below hr
  · unfold goOn
    rw [hr]
    rcases hp with hp | ⟨rfl, hp⟩
    · refine less_of_below hv [{ s with rest := p }] ?_ ?_
      · simp [put, Crew.trees]
      · intro t ht
        obtain rfl := List.mem_singleton.1 ht
        exact hp
    · rcases hp with hp | hp
      · refine .inr ⟨?_, ?_⟩
        · rw [hv]
          simp [put, Crew.trees]
        · rw [hv, hclock]
          have : Stage.weight w.clock
              (.joined g w.clock (span.map fun n => ⟨w.clock + n, w.crew.count⟩) none) ≤ 2 := by
            simp only [Stage.weight]
            split <;> simp
          simp only [put, List.nil_append, List.append_assoc, List.cons_append,
            Crew.weight_append, Crew.weight_cons]
          omega
      · exact (hp g span k hk).elim

/-- A strand that can take its turn leaves less to do. -/
theorem turn_less (h : Host σ) (w : World σ) {front back : List Strand} {s : Strand}
    (hw : w.crew.strands = front ++ s :: back) (hs : (s.stage.turn? w.clock).isSome) :
    Less (w.turn h front s back) w := by
  have answered (runs : Option (List NodeRun)) (spent : Nat) :
      Activity.Below ⟨NodeRun, s.rest.answered runs spent⟩ ⟨NodeRun, s.rest⟩ ∨
        s.rest.answered runs spent = s.rest ∧
          (3 < s.stage.weight w.clock ∨
            ∀ g span k, s.rest.answered runs spent ≠ .join g span k) := by
    cases hr : s.rest with
    | join g span rest => exact .inl (.of_child ⟨_, _, rfl⟩)
    | done | wait | ask | start => exact .inr ⟨rfl, .inr (by simp [Activity.answered])⟩
  have due {t : Turn} {begun : Bool} (hst : s.stage = .due t begun) :
      3 < s.stage.weight w.clock := by
    rw [hst]
    simp only [Stage.weight]
    split <;> simp
  unfold turn
  split
  · next hst => exact goOn_less h w w front s back _ hw rfl (.inr ⟨rfl, .inl (due hst)⟩)
  · next hst =>
    split
    · exact goOn_less h _ w front s back _ hw rfl (.inr ⟨rfl, .inl (due hst)⟩)
    · refine .inr ⟨?_, ?_⟩
      · rw [hw]
        simp [put, Crew.trees]
      · have := due hst
        rw [hw]
        simp only [put, Crew.weight_append, Crew.weight_cons, List.append_assoc,
          List.cons_append, List.nil_append]
        have : Stage.held.weight w.clock = 0 := rfl
        omega
  · next hst => simp [hst, Stage.turn?] at hs
  · next group since alarm woken hst =>
    split
    · exact goOn_less h w w front s back _ hw rfl (answered _ _)
    · split
      · exact goOn_less h w w front s back _ hw rfl (answered _ _)
      · next hcome =>
        have hcome : Turn.come? w.clock alarm = none := by simpa using hcome
        have hwoken : woken.isSome := by
          rw [hst] at hs
          simp only [Stage.turn?, hcome] at hs
          cases woken with
          | none => simp [Turn.earlier?] at hs
          | some t => rfl
        refine .inr ⟨?_, ?_⟩
        · rw [hw]
          simp [put, Crew.trees]
        · rw [hw]
          simp only [put, Crew.weight_append, Crew.weight_cons, List.append_assoc,
            List.cons_append, List.nil_append, hst, Stage.weight, hwoken]
          simp

/-- When the clock moves to the next moment at which a strand goes on, less is left to do. -/
theorem clock_less (w : World σ) {later : Nat}
    (h : Crew.next? w.clock w.crew.strands = some later) : Less { w with clock := later } w :=
  .inr ⟨rfl, (Crew.weight_lt_of_next? h).2⟩

/-- The tasks under way go on until those of the group that is given are done, or until the
moment that is given comes; what happens at that very moment is left for later. -/
def settle (h : Host σ) (goal limit : Option Nat) (w : World σ) : World σ :=
  match _hp : Crew.pick? w.clock w.crew.strands with
  | some (front, s, back) => (w.turn h front s back).settle h goal limit
  | none =>
    if goal.any fun group => (w.crew.results? group).isSome then w
    else
      match _hn : Crew.next? w.clock w.crew.strands with
      | some later =>
        if limit.any (· ≤ later) then { w with clock := limit.getD w.clock }
        else { w with clock := later }.settle h goal limit
      | none => { w with clock := limit.getD w.clock }
  termination_by
    ((⟨Crew.trees w.crew.strands⟩ : Activity.Trees), Crew.weight w.clock w.crew.strands)
  decreasing_by
    · obtain ⟨hw, hs⟩ := Crew.pick?_eq_some _hp
      exact (turn_less h w hw hs).lex
    · exact (clock_less w _hn).lex

end WorkflowGraph.World
