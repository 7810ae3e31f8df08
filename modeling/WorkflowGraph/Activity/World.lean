import WorkflowGraph.Activity.Crew

/-!
# The world of an activity

The world of an activity has a clock, a storage, a crew of tasks, and a host that answers the
calls of executors and tools. The host may remember what it has been asked before.

`Activity.advance` goes on with an activity until it has to wait. What is left to do then is
below the activity, unless it waits for a group from the start.
-/

set_option autoImplicit false

namespace WorkflowGraph

/-- How calls of executors and tools are answered by a host with a memory. -/
structure Host (σ : Type) where
  task : σ → Executor → TaskRequest → Response × σ
  tool : σ → String → Value → Response × σ

/-- What surrounds an activity: the time in milliseconds, the memory of the host, the storage,
and the tasks under way. -/
structure World (σ : Type) where
  clock : Nat
  memory : σ
  storage : Storage
  crew : Crew

variable {σ α β : Type}

/-- The world at its beginning. -/
def World.initial (memory : σ) (storage : Storage) : World σ := ⟨0, memory, storage, .empty⟩

/-- The answer to a call, and the world after it. -/
def Call.answer (h : Host σ) (w : World σ) : (c : Call) → c.Answer × World σ
  | .task e r =>
    let (response, memory) := h.task w.memory e r
    (response, { w with memory })
  | .tool name arguments =>
    let (response, memory) := h.tool w.memory name arguments
    (response, { w with memory })
  | .load store thread => (store.load w.storage thread, w)
  | .save store c =>
    let (done, storage) := store.save w.storage c
    (done, { w with storage })
  | .delete store thread =>
    let (done, storage) := store.delete w.storage thread
    (done, { w with storage })
  | .prune store thread keep =>
    let (gone, storage) := store.prune w.storage thread keep
    (gone, { w with storage })

theorem Call.clock_answer (h : Host σ) (w : World σ) (c : Call) :
    (c.answer h w).2.clock = w.clock := by
  cases c <;> rfl

theorem Call.crew_answer (h : Host σ) (w : World σ) (c : Call) :
    (c.answer h w).2.crew = w.crew := by
  cases c <;> rfl

namespace Activity

/-- How far an activity has come: to its end, to a moment that it waits for, or to a group
that it waits for. The last one keeps the activity as it stands there. -/
inductive Halt (α : Type) : Type 1 where
  | finished (result : α)
  | paused (span : Nat) (rest : Activity α)
  | joined (group : Nat) (span : Option Nat) (rest : Activity α)

/-- Go on with an activity until it has to wait. -/
def advance (h : Host σ) (w : World σ) : Activity α → Halt α × World σ
  | .done a => (.finished a, w)
  | .wait n p => if n = 0 then p.advance h w else (.paused n p, w)
  | .ask c rest =>
    let (a, w) := c.answer h w
    (rest a).advance h w
  | .start limit count task rest =>
    let (group, crew) := w.crew.start w.clock limit count task
    (rest group).advance h { w with crew }
  | .join group span rest =>
    match w.crew.results? group with
    | some runs => (rest (some runs) 0).advance h w
    | none =>
      if span = some 0 then (rest none 0).advance h w
      else (.joined group span (.join group span rest), w)

/-- How an activity that waits for a group goes on. -/
def answered (runs : Option (List NodeRun)) (spent : Nat) : Activity α → Activity α
  | .join _ _ rest => rest runs spent
  | p => p

/-- Whether what a halted activity does then is below another activity. -/
def Halt.isBelow (p : Activity α) : Halt α → Prop
  | .finished _ => True
  | .paused _ rest => Below ⟨α, rest⟩ ⟨α, p⟩
  | .joined _ _ rest => Below ⟨α, rest⟩ ⟨α, p⟩

/-- Whether an activity has moved from a world to its halt and the world there: no time has
passed, and all that is left to do in it and in the tasks that it has started is below it. -/
def Moved (w : World σ) (p : Activity α) (r : Halt α × World σ) : Prop :=
  r.2.clock = w.clock ∧ r.1.isBelow p ∧
    ∃ started, r.2.crew.strands = w.crew.strands ++ started ∧
      ∀ t ∈ Crew.trees started, Below t ⟨α, p⟩

theorem Moved.of_child {w v : World σ} {q p : Activity α} {r : Halt α × World σ}
    (hc : Child ⟨α, q⟩ ⟨α, p⟩) (hclock : v.clock = w.clock)
    (hstrands : ∃ started, v.crew.strands = w.crew.strands ++ started ∧
      ∀ t ∈ Crew.trees started, Below t ⟨α, p⟩)
    (h : Moved v q r ∨ ∃ g span, r = (.joined g span q, v)) : Moved w p r := by
  obtain ⟨first, hfirst, hbelow⟩ := hstrands
  rcases h with ⟨hc', hr, more, hmore, hbelow'⟩ | ⟨g, span, rfl⟩
  · refine ⟨hc'.trans hclock, ?_, first ++ more, by rw [hmore, hfirst, List.append_assoc], ?_⟩
    · cases hh : r.1 with
      | finished => trivial
      | paused n rest => rw [hh] at hr; exact Below.trans hr (.of_child hc)
      | joined g span rest => rw [hh] at hr; exact Below.trans hr (.of_child hc)
    · intro t ht
      simp only [Crew.trees_append, List.mem_append] at ht
      rcases ht with ht | ht
      · exact hbelow t ht
      · exact (hbelow' t ht).trans (.of_child hc)
  · exact ⟨hclock, .of_child hc, first, hfirst, hbelow⟩

/-- An activity that goes on moves, unless it waits for a group from the start. -/
theorem advance_moved (h : Host σ) (w : World σ) (p : Activity α) :
    Moved w p (p.advance h w) ∨
      ∃ g span k, p = .join g span k ∧ p.advance h w = (.joined g span p, w) := by
  have same (q : Activity α) (w : World σ) : ∃ started, w.crew.strands = w.crew.strands ++ started ∧
      ∀ t ∈ Crew.trees started, Below t ⟨α, q⟩ := ⟨[], by simp, by simp [Crew.trees]⟩
  have onward {q : Activity α} {w : World σ} (ih : Moved w q (q.advance h w) ∨
      ∃ g span k, q = .join g span k ∧ q.advance h w = (.joined g span q, w)) :
      Moved w q (q.advance h w) ∨ ∃ g span, q.advance h w = (.joined g span q, w) := by
    rcases ih with ih | ⟨g, span, _, _, ih⟩
    · exact .inl ih
    · exact .inr ⟨g, span, ih⟩
  induction p generalizing w with
  | done a => exact .inl ⟨rfl, trivial, same _ _⟩
  | wait n p ih =>
    refine .inl ?_
    unfold advance
    split
    · exact .of_child rfl rfl (same _ _) (onward (ih w same onward))
    · exact ⟨rfl, .of_child rfl, same _ _⟩
  | ask c rest ih =>
    refine .inl ?_
    have := onward (ih (c.answer h w).1 (c.answer h w).2 same onward)
    refine .of_child ⟨_, rfl⟩ (c.clock_answer h w) ?_ this
    rw [c.crew_answer]
    exact same _ _
  | start limit count task rest _ ih =>
    refine .inl ?_
    have := onward (ih (w.crew.start w.clock limit count task).1
      { w with crew := (w.crew.start w.clock limit count task).2 } same onward)
    refine Moved.of_child (v := { w with crew := (w.crew.start w.clock limit count task).2 })
      (.inr ⟨_, rfl⟩) rfl ⟨_, rfl, ?_⟩ this
    intro t ht
    simp only [Crew.trees, List.mem_map, List.mem_ofFn] at ht
    obtain ⟨s, ⟨i, rfl⟩, rfl⟩ := ht
    exact .of_child (.inl ⟨i, rfl⟩)
  | join g span rest ih =>
    unfold advance
    split
    · exact .inl (.of_child ⟨_, _, rfl⟩ rfl (same _ _) (onward (ih _ _ w same onward)))
    · split
      · exact .inl (.of_child ⟨_, _, rfl⟩ rfl (same _ _) (onward (ih _ _ w same onward)))
      · exact .inr ⟨g, span, rest, rfl, rfl⟩

end Activity

end WorkflowGraph
