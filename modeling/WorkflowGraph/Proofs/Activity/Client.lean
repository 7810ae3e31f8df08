import Mathlib.Logic.Function.Iterate
import WorkflowGraph.Activity.Run

/-!
# One step at a time

To carry out an activity is a single function, and nobody else can do anything meanwhile. A client
does the same thing one step at a time (`Client.step`), with one call at most in each step, so that
others may do something in between. It keeps the clock, the tasks under way and what is left to do;
what it does next is given by these alone, up to the answer to a call (`Doing.move`).

A client that is left to itself comes to what the activity comes to when it is carried out
(`Client.comes_run`).
-/

set_option autoImplicit false

namespace WorkflowGraph

variable {σ α : Type}

/-- Induction on the activity of a strand, without the tasks that it starts. -/
@[elab_as_elim]
theorem Activity.strandInduction {motive : Activity NodeRun → Prop}
    (done : ∀ run, motive (.done run))
    (wait : ∀ span p, motive p → motive (.wait span p))
    (ask : ∀ c rest, (∀ a, motive (rest a)) → motive (.ask c rest))
    (start : ∀ limit count task rest, (∀ group, motive (rest group)) →
      motive (.start limit count task rest))
    (join : ∀ group span rest, (∀ runs spent, motive (rest runs spent)) →
      motive (.join group span rest)) (p : Activity NodeRun) : motive p := by
  suffices h : ∀ {β : Type} (q : Activity β) (hβ : β = NodeRun), motive (hβ ▸ q) from h p rfl
  intro β q
  induction q with
  | done a =>
    rintro rfl
    exact done a
  | wait span q ih =>
    rintro rfl
    exact wait span q (ih rfl)
  | ask c rest ih =>
    rintro rfl
    exact ask c rest fun a => ih a rfl
  | start limit count task rest _ ih =>
    rintro rfl
    exact start limit count task rest fun group => ih group rfl
  | join group span rest ih =>
    rintro rfl
    exact join group span rest fun runs spent => ih runs spent rfl

/-! ## What a client does -/

/-- What an activity waits for while tasks go on: until those of a group are done, or until a moment
comes. Then it goes on as `next` says; `rested` is set if that is a call before which the tasks have
been given time. -/
structure Wait (α : Type) : Type 1 where
  group : Option Nat
  limit : Option Nat
  rested : Bool
  next : Nat → Crew → Activity α

/-- What a client is doing: it goes on with its activity, it waits, or it is in the middle of the
turn of a strand between others, while it waits. The tasks that the strand has started in its turn
are the only ones in the crew then. -/
inductive Doing (α : Type) : Type 1 where
  | going (rested : Bool) (rest : Activity α)
  | waiting (wait : Wait α)
  | turn (front : List Strand) (s : Strand) (back : List Strand) (rest : Activity NodeRun)
    (wait : Wait α)

/-- What is done next: something that nobody else notices, or a call. -/
inductive Move (α : Type) : Type 1 where
  | onward (clock : Nat) (crew : Crew) (doing : Doing α)
  | ask (call : Call) (next : call.Answer → Doing α)

/-- The next move of an activity. -/
def Activity.move (clock : Nat) (crew : Crew) (rested : Bool) : Activity α → Move α
  | .done a => .onward clock crew (.going rested (.done a))
  | .wait span p =>
    if span = 0 then .onward clock crew (.going false p)
    else .onward clock crew (.waiting ⟨none, some (clock + span), false, fun _ _ => p⟩)
  | .ask c rest =>
    if c.isSlow && !rested then
      .onward clock crew (.waiting ⟨none, some clock, true, fun _ _ => .ask c rest⟩)
    else .ask c fun a => .going false (rest a)
  | .start limit count task rest =>
    let (group, crew) := crew.start clock limit count task
    .onward clock crew (.going false (rest group))
  | .join group span rest =>
    if (crew.results? group).isSome ∨ span = some 0 then
      .onward clock crew (.going false (rest (crew.results? group) 0))
    else
      .onward clock crew (.waiting ⟨some group, span.map (clock + ·), false,
        fun later crew => rest (crew.results? group) (later - clock)⟩)

namespace Wait

variable (wait : Wait α) (clock : Nat) (crew : Crew) (front : List Strand) (s : Strand)
  (back : List Strand)

/-- A strand between others takes its turn. -/
def take : Move α :=
  let enter (crew : Crew) (p : Activity NodeRun) : Move α :=
    .onward clock { crew with strands := [] } (.turn front s back p wait)
  let stay (stage : Stage) : Move α :=
    .onward clock { crew with strands := front ++ [{ s with stage }] ++ back } (.waiting wait)
  match s.stage with
  | .due _ true => enter crew s.rest
  | .due _ false =>
    if crew.hasPlace s.group then enter (crew.takePlace s.group) s.rest else stay .held
  | .held => .onward clock crew (.waiting wait)
  | .joined group since alarm _ =>
    match crew.results? group with
    | some runs => enter crew (s.rest.answered (some runs) (clock - since))
    | none =>
      if (Turn.come? clock alarm).isSome then enter crew (s.rest.answered none (clock - since))
      else stay (.joined group since alarm none)

/-- The strand goes back between the others, behind the tasks that it has started. -/
def pause (stage : Stage) (rest : Activity NodeRun) : Crew :=
  { crew with
    strands := front ++ (crew.strands ++ [{ s with stage, rest }]) ++ back
    count := crew.count + 1 }

/-- A strand goes on in its turn. -/
def turn : Activity NodeRun → Move α
  | .done run =>
    let crew := { crew with strands := front ++ crew.strands ++ back }
    .onward clock (crew.finish clock s.group s.index run) (.waiting wait)
  | .wait span p =>
    if span = 0 then .onward clock crew (.turn front s back p wait)
    else
      .onward clock (pause crew front s back (.due ⟨clock + span, crew.count⟩ true) p)
        (.waiting wait)
  | .ask c rest => .ask c fun a => .turn front s back (rest a) wait
  | .start limit count task rest =>
    let (group, crew) := crew.start clock limit count task
    .onward clock crew (.turn front s back (rest group) wait)
  | .join group span rest =>
    match crew.results? group with
    | some runs => .onward clock crew (.turn front s back (rest (some runs) 0) wait)
    | none =>
      if span = some 0 then .onward clock crew (.turn front s back (rest none 0) wait)
      else
        let alarm : Option Turn := span.map fun n => ⟨clock + n, crew.count⟩
        .onward clock
          (pause crew front s back (.joined group clock alarm none) (.join group span rest))
          (.waiting wait)

/-- The wait is over at a moment. -/
def finish : Move α := .onward clock crew (.going wait.rested (wait.next clock crew))

/-- The next move of who waits: of the strand whose turn it is, or of the clock. -/
def move : Move α :=
  match Crew.pick? clock crew.strands with
  | some (front, s, back) => wait.take clock crew front s back
  | none =>
    if wait.group.any fun group => (crew.results? group).isSome then wait.finish clock crew
    else
      match Crew.next? clock crew.strands with
      | some later =>
        if wait.limit.any (· ≤ later) then wait.finish (wait.limit.getD clock) crew
        else .onward later crew (.waiting wait)
      | none => wait.finish (wait.limit.getD clock) crew

end Wait

/-- The next move. -/
def Doing.move (clock : Nat) (crew : Crew) : Doing α → Move α
  | .going rested p => p.move clock crew rested
  | .waiting wait => wait.move clock crew
  | .turn front s back p wait => wait.turn clock crew front s back p

/-- Someone who carries out an activity in a world of their own. -/
structure Client (σ α : Type) : Type 1 where
  world : World σ
  doing : Doing α

namespace Client

/-- A client that has not done anything yet. -/
def starting (w : World σ) (p : Activity α) : Client σ α := ⟨w, .going false p⟩

/-- Whether a client has come to an end, and to which one. -/
def Ends (c : Client σ α) (a : α) : Prop := ∃ rested, c.doing = .going rested (.done a)

/-- Do what is done next. -/
def step (host : Host σ) (c : Client σ α) : Client σ α :=
  match c.doing.move c.world.clock c.world.crew with
  | .onward clock crew doing => ⟨{ c.world with clock, crew }, doing⟩
  | .ask call next =>
    let r := call.answer host c.world
    ⟨r.2, next r.1⟩

/-- Whether a client comes from one point to another one in some number of steps. -/
def Comes (host : Host σ) (c d : Client σ α) : Prop := ∃ n, (step host)^[n] c = d

variable {host : Host σ} {c d e : Client σ α}

theorem Comes.refl : Comes host c c := ⟨0, rfl⟩

theorem Comes.trans (h : Comes host c d) (h' : Comes host d e) : Comes host c e := by
  obtain ⟨m, rfl⟩ := h
  obtain ⟨n, rfl⟩ := h'
  exact ⟨n + m, Function.iterate_add_apply _ n m c⟩

theorem Comes.of_step (h : Comes host (c.step host) d) : Comes host c d := by
  obtain ⟨n, rfl⟩ := h
  exact ⟨n + 1, rfl⟩

theorem Comes.step_eq (h : c.step host = d) : Comes host c d := ⟨1, h⟩

/-- Who has come to an end stays there. -/
theorem Ends.step {a : α} (h : c.Ends a) : c.step host = c := by
  obtain ⟨rested, hdoing⟩ := h
  obtain ⟨world, doing⟩ := c
  cases hdoing
  rfl

theorem Ends.iterate {a : α} (h : c.Ends a) (n : Nat) : (Client.step host)^[n] c = c :=
  Function.iterate_fixed h.step n

/-- Two ends that one client comes to are the same, and come with the same world. -/
theorem Ends.eq {a b : α} {m n : Nat} (ha : ((Client.step host)^[m] c).Ends a)
    (hb : ((Client.step host)^[n] c).Ends b) :
    a = b ∧ (Client.step host)^[m] c = (Client.step host)^[n] c := by
  have hsame : (Client.step host)^[m] c = (Client.step host)^[n] c := by
    rcases Nat.le_total m n with hle | hle
    · obtain ⟨k, rfl⟩ := Nat.exists_eq_add_of_le' hle
      rw [Function.iterate_add_apply, ha.iterate]
    · obtain ⟨k, rfl⟩ := Nat.exists_eq_add_of_le' hle
      rw [Function.iterate_add_apply, hb.iterate]
  rw [hsame] at ha
  obtain ⟨_, hfirst⟩ := ha
  obtain ⟨_, hsecond⟩ := hb
  rw [hfirst] at hsecond
  cases hsecond
  exact ⟨rfl, hsame⟩

/-! ## Carrying out an activity is what a client comes to -/

/-- The world after the turn of a strand that has halted. -/
def rejoin (front : List Strand) (s : Strand) (back : List Strand) :
    Activity.Halt NodeRun × World σ → World σ
  | (.finished run, w) =>
    let w := w.put front w.crew.strands back
    { w with crew := w.crew.finish w.clock s.group s.index run }
  | (.paused span rest, w) =>
    { w with
      crew := Wait.pause w.crew front s back (.due ⟨w.clock + span, w.crew.count⟩ true) rest }
  | (.joined group span rest, w) =>
    let alarm : Option Turn := span.map fun n => ⟨w.clock + n, w.crew.count⟩
    { w with crew := Wait.pause w.crew front s back (.joined group w.clock alarm none) rest }

theorem goOn_eq (host : Host σ) (w : World σ) (front : List Strand) (s : Strand)
    (back : List Strand) (p : Activity NodeRun) :
    w.goOn host front s back p = rejoin front s back (p.advance host (w.put [] [] [])) := by
  unfold World.goOn
  rcases p.advance host (w.put [] [] []) with ⟨halt, v⟩
  cases halt <;> rfl

/-- By induction on what the strand does in its turn. -/
theorem comes_rejoin (host : Host σ) (w : World σ) (front : List Strand) (s : Strand)
    (back : List Strand) (p : Activity NodeRun) (wait : Wait α) :
    Comes host ⟨w, .turn front s back p wait⟩
      ⟨rejoin front s back (p.advance host w), .waiting wait⟩ := by
  induction p using Activity.strandInduction generalizing w with
  | done run => exact .step_eq rfl
  | wait span p ih =>
    by_cases hspan : span = 0
    · have hstep : step host ⟨w, .turn front s back (.wait span p) wait⟩ =
          (⟨w, .turn front s back p wait⟩ : Client σ α) := by
        simp only [step, Doing.move, Wait.turn, if_pos hspan]
      unfold Activity.advance
      rw [if_pos hspan]
      refine .of_step ?_
      rw [hstep]
      exact ih w
    · unfold Activity.advance
      rw [if_neg hspan]
      refine .step_eq ?_
      simp only [step, Doing.move, Wait.turn, if_neg hspan]
      rfl
  | ask c rest ih => exact .of_step (ih _ _)
  | start limit count task rest ih => exact .of_step (ih _ _)
  | join group span rest ih =>
    unfold Activity.advance
    cases hresults : w.crew.results? group with
    | some runs =>
      refine .of_step ?_
      simp only [step, Doing.move, Wait.turn, hresults]
      exact ih (some runs) 0 w
    | none =>
      by_cases hspan : span = some 0
      · rw [if_pos hspan]
        refine .of_step ?_
        simp only [step, Doing.move, Wait.turn, hresults, if_pos hspan]
        exact ih none 0 w
      · rw [if_neg hspan]
        refine .step_eq ?_
        simp only [step, Doing.move, Wait.turn, hresults, if_neg hspan]
        rfl

/-- A strand between others takes its turn, and comes back from it. -/
theorem comes_turn (host : Host σ) {w : World σ} {front back : List Strand} {s : Strand}
    (hpick : Crew.pick? w.clock w.crew.strands = some (front, s, back)) (wait : Wait α) :
    Comes host ⟨w, .waiting wait⟩ ⟨w.turn host front s back, .waiting wait⟩ := by
  have henter (v : World σ) (p : Activity NodeRun)
      (hstep : step host ⟨w, .waiting wait⟩ = ⟨v.put [] [] [], .turn front s back p wait⟩) :
      Comes host ⟨w, .waiting wait⟩ ⟨v.goOn host front s back p, .waiting wait⟩ := by
    refine .of_step ?_
    rw [hstep, goOn_eq]
    exact comes_rejoin host _ front s back p wait
  have hmove : step host ⟨w, .waiting wait⟩ =
      match wait.take w.clock w.crew front s back with
      | .onward clock crew doing => ⟨{ w with clock, crew }, doing⟩
      | .ask call next => ⟨(call.answer host w).2, next (call.answer host w).1⟩ := by
    simp only [step, Doing.move, Wait.move, hpick]
  unfold World.turn
  cases hstage : s.stage with
  | due turn begun =>
    cases begun with
    | true =>
      refine henter w s.rest ?_
      rw [hmove]
      simp only [Wait.take, hstage]
      rfl
    | false =>
      dsimp only
      by_cases hplace : w.crew.hasPlace s.group
      · rw [if_pos hplace]
        refine henter { w with crew := w.crew.takePlace s.group } s.rest ?_
        rw [hmove]
        simp only [Wait.take, hstage, if_pos hplace]
        rfl
      · rw [if_neg hplace]
        refine .step_eq ?_
        rw [hmove]
        simp only [Wait.take, hstage, if_neg hplace]
        rfl
  | held =>
    refine .step_eq ?_
    rw [hmove]
    simp only [Wait.take, hstage]
  | joined group since alarm woken =>
    dsimp only
    cases hresults : w.crew.results? group with
    | some runs =>
      refine henter w _ ?_
      rw [hmove]
      simp only [Wait.take, hstage, hresults]
      rfl
    | none =>
      dsimp only
      by_cases hcome : (Turn.come? w.clock alarm).isSome
      · rw [if_pos hcome]
        refine henter w _ ?_
        rw [hmove]
        simp only [Wait.take, hstage, hresults, if_pos hcome]
        rfl
      · rw [if_neg hcome]
        refine .step_eq ?_
        rw [hmove]
        simp only [Wait.take, hstage, hresults, if_neg hcome]
        rfl

/-- Who waits comes to the end of the wait. By induction on what the tasks do meanwhile. -/
theorem comes_settle (host : Host σ) (w : World σ) (wait : Wait α) :
    Comes host ⟨w, .waiting wait⟩
      (let v := w.settle host wait.group wait.limit
      ⟨v, .going wait.rested (wait.next v.clock v.crew)⟩) := by
  generalize hgroup : wait.group = group
  generalize hlimit : wait.limit = limit
  fun_induction World.settle host group limit w with
  | case1 w front s back hpick ih => exact (comes_turn host hpick wait).trans ih
  | case2 w hpick hdone =>
    refine .step_eq ?_
    simp only [step, Doing.move, Wait.move, hpick, hgroup, if_pos hdone, Wait.finish]
  | case3 w hpick hdone later hnext hover =>
    refine .step_eq ?_
    simp only [step, Doing.move, Wait.move, hpick, hgroup, hlimit, if_neg hdone, hnext,
      if_pos hover, Wait.finish]
  | case4 w hpick hdone later hnext hover ih =>
    refine .of_step ?_
    have hstep : step host ⟨w, .waiting wait⟩ = ⟨{ w with clock := later }, .waiting wait⟩ := by
      simp only [step, Doing.move, Wait.move, hpick, hgroup, hlimit, if_neg hdone, hnext,
        if_neg hover]
    rw [hstep]
    exact ih
  | case5 w hpick hdone hnext =>
    refine .step_eq ?_
    simp only [step, Doing.move, Wait.move, hpick, hgroup, hlimit, if_neg hdone, hnext, Wait.finish]

/-- **A client that is left to itself carries out its activity.** By induction on the activity. -/
theorem comes_run (host : Host σ) (w : World σ) (p : Activity α) :
    Comes host (starting w p) (starting (p.run host w).2 (.done (p.run host w).1)) := by
  unfold starting
  induction p generalizing w with
  | done a => exact .refl
  | wait span p ih =>
    refine Comes.trans ?_ (ih _)
    unfold World.pass
    by_cases hspan : span = 0
    · rw [if_pos hspan]
      refine .step_eq ?_
      simp only [step, Doing.move, Activity.move, if_pos hspan]
    · rw [if_neg hspan]
      refine .of_step ?_
      simp only [step, Doing.move, Activity.move, if_neg hspan]
      exact comes_settle host w _
  | ask c rest ih =>
    have hasked (v : World σ) (hv : (if c.isSlow then w.rest host else w) = v) :
        Comes host ⟨w, .going false (.ask c rest)⟩
          ⟨(c.answer host v).2, .going false (rest (c.answer host v).1)⟩ := by
      by_cases hslow : c.isSlow
      · rw [if_pos hslow] at hv
        subst hv
        refine Comes.trans (d := ⟨w.rest host, .going true (.ask c rest)⟩) ?_ (.step_eq ?_)
        · refine .of_step ?_
          simp only [step, Doing.move, Activity.move, hslow, Bool.not_false, Bool.and_true, if_true]
          exact comes_settle host w _
        · simp only [step, Doing.move, Activity.move, Bool.not_true, Bool.and_false,
            Bool.false_eq_true, if_false]
      · rw [if_neg hslow] at hv
        subst hv
        refine .step_eq ?_
        simp only [step, Doing.move, Activity.move, hslow, Bool.not_false, Bool.and_true,
          Bool.false_eq_true, if_false]
    exact (hasked _ rfl).trans (ih _ _)
  | start limit count task rest _ ih => exact .of_step (ih _ _)
  | join group span rest ih =>
    refine Comes.trans ?_ (ih _ _ _)
    unfold World.await
    by_cases hready : (w.crew.results? group).isSome ∨ span = some 0
    · rw [if_pos hready]
      refine .step_eq ?_
      simp only [step, Doing.move, Activity.move, if_pos hready, Nat.sub_self]
    · rw [if_neg hready]
      refine .of_step ?_
      simp only [step, Doing.move, Activity.move, if_neg hready]
      exact comes_settle host w _

end Client

end WorkflowGraph
