import WorkflowGraph.Proofs.Condition.Comparison
import WorkflowGraph.Proofs.Graph.ReadBack

/-!
# Counting with a passthrough

A passthrough adds signed integers exactly where the sum is a signed integer too; otherwise it goes
over to floating-point numbers, and does not fail (`PassthroughSpec.increased_int`). So
counting is exact as long as the total stays signed, visit after visit
(`PassthroughSpec.tally_int`), and a condition that compares the total decides by the integer. If
one addition of a node fails, the node writes nothing, to whatever field
(`Graph.enter_keeps_values`).
-/

set_option autoImplicit false

namespace WorkflowGraph

open Activity

namespace Value

theorem Signed.held {n : Int} (h : Signed n) : Held n :=
  ⟨h.1, h.2.trans (by decide)⟩

end Value

namespace PassthroughSpec

open Value

variable {id field : String} {s : State} {old : Option Value} {a d : Int}

/-- The integer that what a field holds counts as: nothing and null count as zero. -/
inductive Counts : Option Value → Int → Prop
  | absent : Counts none 0
  | null : Counts (some .null) 0
  | int (n : Int) : Counts (some (.int n)) n

theorem Counts.operand? (h : Counts old a) : operand? old = some (.int a) := by
  cases h <;> rfl

/-- The sum of two integers that a value can hold: exact if all three are signed. -/
def added (a d : Int) : Value :=
  if Signed a ∧ Signed d ∧ Signed (a + d) then .int (a + d)
  else .float (floatOfInt a + floatOfInt d)

theorem added_of_signed (ha : Signed a) (hd : Signed d) (hsum : Signed (a + d)) :
    added a d = .int (a + d) :=
  if_pos ⟨ha, hd, hsum⟩

theorem sum?_int_of_not_signed (ha : Held a) (hd : Held d)
    (hnot : ¬ (Signed a ∧ Signed d ∧ Signed (a + d))) :
    sum? (.int a) (.int d) = some (.float (floatOfInt a + floatOfInt d)) := by
  have hfinite := Binary64.isFinite_floatOfInt_add ha.1 ha.2 hd.1 hd.2
  unfold sum?
  simp only [signed?_int, asFloat?, Option.getD_some, hfinite, if_true]
  by_cases ha' : a ≤ maxSigned
  · by_cases hd' : d ≤ maxSigned
    · have hout : (decide (minInt ≤ a + d) && decide (a + d ≤ maxSigned)) = false := by
        rw [← Bool.not_eq_true, Bool.and_eq_true, decide_eq_true_eq, decide_eq_true_eq]
        exact fun hsum => hnot ⟨⟨ha.1, ha'⟩, ⟨hd.1, hd'⟩, hsum⟩
      simp only [ha', hd', hout, if_true, Bool.false_eq_true, if_false]
    · simp only [ha', hd', if_true, if_false]
  · simp only [ha', if_false]

/-- **Adding an integer to an integer never fails**: it gives the sum where all of them are signed,
and a floating-point number otherwise. -/
theorem increased_int (id field : String) (hold : Counts old a) (ha : Held a) (hd : Held d) :
    increased id field old (.int d) = .ok (added a d) := by
  unfold increased added
  rw [hold.operand?]
  dsimp only [Number.value]
  split_ifs with hsigned
  · rw [sum?_int hsigned.1 hsigned.2.1 hsigned.2.2]
  · rw [sum?_int_of_not_signed ha hd hsigned]

/-- What a field holds after a number has been added to it a number of times. -/
def tally (id field : String) (delta : Number) :
    Nat → Option Value → Except TaskError (Option Value)
  | 0, old => .ok old
  | k + 1, old =>
    match increased id field old delta with
    | .error e => .error e
    | .ok v => tally id field delta k (some v)

/-- **Counting is exact as long as the total is signed.** By induction on the additions. -/
theorem tally_int (id field : String) (hold : Counts old a) (ha : Signed a) (hd : Signed d)
    (k : Nat) (htotal : Signed (a + k * d)) :
    ∃ new, tally id field (.int d) k old = .ok new ∧ Counts new (a + k * d) ∧
      (0 < k → new = some (.int (a + k * d))) := by
  induction k generalizing old a with
  | zero =>
    rw [Int.natCast_zero, Int.zero_mul, Int.add_zero]
    exact ⟨old, rfl, hold, fun h => absurd h (Nat.lt_irrefl 0)⟩
  | succ k ih =>
    have hsum := ha.add_of_total htotal
    have hstep : a + (k + 1 : Nat) * d = a + d + k * d := by
      rw [Int.natCast_succ, Int.add_mul, Int.one_mul]
      omega
    rw [hstep] at htotal ⊢
    obtain ⟨new, htally, hcounts, hnew⟩ := ih (.int (a + d)) hsum htotal
    refine ⟨new, ?_, hcounts, fun _ => ?_⟩
    · rw [tally, increased_int id field hold ha.held hd.held, added_of_signed ha hd hsum]
      exact htally
    · cases k with
      | zero =>
        cases htally
        rw [Int.natCast_zero, Int.zero_mul, Int.add_zero]
      | succ k => exact hnew (Nat.succ_pos k)

/-- A signed integer in a state is compared with another one as an integer. -/
theorem holds_signed_iff (op : Comparison) (ha : Signed a) (hd : Signed d) :
    op.holds (some (.int a)) (some (.int d)) = true ↔ op.Relates a d := by
  rw [op.holds_int ha.held hd.held, seen_eq_compare_iff.mpr (.inl ⟨ha.2, hd.2⟩),
    op.admits_compare_iff]

/-! ## All writes or none -/

/-- Whether one of the additions of a node fails in a state. -/
def FailsAt (spec : PassthroughSpec) (id : String) (s : State) : Prop :=
  ∃ p ∈ spec.increment, ∃ e, increased id p.1 (s.at? p.1) p.2 = .error e

theorem FailsAt.of_values {spec : PassthroughSpec} {t : State} (h : spec.FailsAt id s)
    (hvalues : t.values = s.values) : spec.FailsAt id t := by
  unfold FailsAt State.at? at *
  rw [hvalues]
  exact h

/-- Additions fail together as soon as one of them does. By induction on the additions. -/
theorem exists_increments_error_iff (id : String) (s : State) (l : List (String × Number)) :
    (∃ e, increments id s l = .error e) ↔
      ∃ p ∈ l, ∃ e, increased id p.1 (s.at? p.1) p.2 = .error e := by
  induction l with
  | nil =>
    constructor
    · rintro ⟨e, ⟨⟩⟩
    · rintro ⟨p, hp, _⟩
      exact absurd hp List.not_mem_nil
  | cons p rest ih =>
    obtain ⟨name, delta⟩ := p
    rw [List.exists_mem_cons_iff, ← ih]
    conv => lhs; unfold increments
    cases increased id name (s.at? name) delta with
    | error e => exact ⟨fun _ => .inl ⟨e, rfl⟩, fun _ => ⟨e, rfl⟩⟩
    | ok v =>
      cases increments id s rest with
      | error e => exact ⟨fun _ => .inr ⟨e, rfl⟩, fun _ => ⟨e, rfl⟩⟩
      | ok more =>
        constructor
        · rintro ⟨e, ⟨⟩⟩
        · rintro (⟨e, ⟨⟩⟩ | ⟨e, ⟨⟩⟩)

/-- **The update of a passthrough fails if and only if one of its additions does.** -/
theorem exists_update_error_iff {spec : PassthroughSpec} :
    (∃ e, spec.update id s = .error e) ↔ spec.FailsAt id s := by
  rw [FailsAt, ← exists_increments_error_iff, update]
  cases increments id s spec.increment with
  | error e => exact ⟨fun _ => ⟨e, rfl⟩, fun _ => ⟨e, rfl⟩⟩
  | ok added =>
    constructor
    · rintro ⟨e, ⟨⟩⟩
    · rintro ⟨e, ⟨⟩⟩

theorem behaviour_yields_nothing {spec : PassthroughSpec} {v : Visit}
    (h : spec.FailsAt id v.state) :
    (spec.behaviour id v).Obeys (fun _ => True) fun a =>
      NodeFrame.Yields (· = .nothing) a.result := by
  obtain ⟨e, he⟩ := exists_update_error_iff.mpr h
  show NodeFrame.Yields _ ((spec.update id v.state).map NodeOutcome.proceed)
  rw [he]
  rintro _ ⟨⟩

end PassthroughSpec

/-! ## In a graph -/

/-- A step leaves the fields as they are if the execution of its node comes to nothing. -/
theorem GraphFrame.enter_keeps_values {g : GraphFrame} {runner? : String → Option Runner}
    {scope : Scope} {node : String} {s : State} {resume : Option Value}
    (hrunner : ∀ runner, runner? node = some runner → ∀ t : State, t.values = s.values →
      (runner t scope resume).Obeys (fun _ => True) fun r =>
        NodeFrame.Yields (· = .nothing) r.result)
    (budget : Option Nat) :
    (g.enter runner? scope budget s node resume).Obeys (fun _ => True) fun r =>
      r.state.values = s.values := by
  unfold enter
  cases hnode : runner? node with
  | none => rfl
  | some runner =>
    obtain ⟨counters, hcounters⟩ := g.visit_eq s node resume
    rcases hvisit : g.visit s node resume with ⟨visited, t⟩
    rw [hvisit] at hcounters
    dsimp only at hcounters
    have hvalues : t.values = s.values := by rw [hcounters]
    cases visited with
    | error e => exact hvalues
    | ok _ =>
      dsimp only
      unfold carryOut
      refine obeys_bind ((hrunner runner hnode t hvalues).withinOption budget) ?_
      rintro (_ | ⟨r, left⟩) hr
      · exact hvalues
      · dsimp only
        cases hresult : r.result with
        | error e => exact hvalues
        | ok outcome =>
          obtain rfl := hr _ rfl outcome hresult
          refine obeys_bind (g.settle_values _ _ _ _) fun settled hsettled => ?_
          exact hsettled.trans hvalues

namespace Graph

open PassthroughSpec Value

variable {g : Graph} {id field : String} {s : State}

/-- **A passthrough of which one addition fails writes no field.** -/
theorem enter_keeps_values {frame : NodeFrame} {spec : PassthroughSpec}
    (hnode : GraphNode.lookup? g.nodes id = some (.leaf frame (.passthrough spec)))
    (hfails : spec.FailsAt frame.id s) (scope : Scope) (budget : Option Nat)
    (resume : Option Value) :
    (g.frame.enter g.runner? scope budget s id resume).Obeys (fun _ => True) fun r =>
      r.state.values = s.values := by
  refine GraphFrame.enter_keeps_values (fun runner hrunner t ht => ?_) budget
  obtain ⟨made, hmade, rfl⟩ := exists_of_runner? hrunner
  rw [hnode] at hmade
  cases hmade
  apply NodeFrame.execute_yields (Q := (· = .nothing)) fun _ => rfl
  rintro v rfl
  exact behaviour_yields_nothing (hfails.of_values ht)

/-- **A loop counts exactly.** A walk that does not fail leaves the sum of what the field held and
of what has been added on each visit, as long as that is a signed integer. -/
theorem Tallies.track_counts {a d : Int} (h : g.Tallies id field (.int d))
    (ha : s.at? field = some (.int a)) (hsigned : Signed a) (hd : Signed d) (scope : Scope)
    (budget : Option Nat) (node : String) (resume : Option Value) (steps : Nat) :
    (g.frame.trackFrom g.runner? scope budget s node resume steps).Obeys (fun _ => True) fun r =>
      (∀ e, r.2.1 ≠ .failed e) → Signed (a + r.1.count id * d) →
        r.2.2.at? field = some (.int (a + r.1.count id * d)) := by
  refine (h.track_obeys scope budget ha rfl node resume steps).mono (fun _ hc => hc) ?_
  intro r hr hnot htotal
  obtain ⟨b, hb, hsum⟩ := hr hnot
  rw [Number.value, summed_int hsigned hd _ htotal] at hsum
  rw [hb, ← hsum]

end Graph

namespace PassthroughSpec

open Value

/-- **Increments are exact for signed integers, and all or nothing.** Adding an integer to nothing,
to null or to an integer never fails: it gives their sum where all three are signed, and a finite
floating-point number otherwise. As long as the total is signed, any number of additions of signed
integers counts exactly, comparisons of the total with signed integers decide by it, and so do
loops of a graph. A node writes all of its additions, or, if one fails, no field. -/
theorem increments_exact (id field : String) {old : Option Value} {a d : Int} (hold : Counts old a)
    (ha : Held a) (hd : Held d) :
    (increased id field old (.int d) = .ok (added a d) ∧
      (floatOfInt a + floatOfInt d).isFinite = true) ∧
    (Signed a → Signed d → ∀ k : Nat, 0 < k → Signed (a + k * d) →
      tally id field (.int d) k old = .ok (some (.int (a + k * d))) ∧
      ∀ (op : Comparison) (n : Int), Signed n →
        (op.holds (some (.int (a + k * d))) (some (.int n)) = true ↔ op.Relates (a + k * d) n)) ∧
    (∀ (spec : PassthroughSpec) (s : State) (u : Update), s.at? field = old →
      (field, .int d) ∈ spec.increment → (∀ p ∈ spec.increment, p.1 = field → p.2 = .int d) →
      spec.update id s = .ok u → u.last? field = some (added a d)) ∧
    (∀ (g : Graph) (node : String) (s : State) (scope : Scope) (budget : Option Nat)
      (resume : Option Value),
      (Signed a → Signed d → g.Tallies node field (.int d) → s.at? field = some (.int a) →
        ∀ start steps,
        (g.frame.trackFrom g.runner? scope budget s start resume steps).Obeys (fun _ => True)
          fun r => (∀ e, r.2.1 ≠ .failed e) → Signed (a + r.1.count node * d) →
            r.2.2.at? field = some (.int (a + r.1.count node * d))) ∧
      ∀ frame spec, GraphNode.lookup? g.nodes node = some (.leaf frame (.passthrough spec)) →
        spec.FailsAt frame.id s →
        (∃ e, spec.update frame.id s = .error e) ∧
        (g.frame.enter g.runner? scope budget s node resume).Obeys (fun _ => True) fun r =>
          r.state.values = s.values) := by
  refine ⟨⟨increased_int id field hold ha hd, Binary64.isFinite_floatOfInt_add ha.1 ha.2 hd.1 hd.2⟩,
    fun ha' hd' k hk htotal => ⟨?_, fun op n hn => holds_signed_iff op htotal hn⟩,
    fun spec s u hfield hmem honly hupdate => ?_,
    fun g node s scope budget resume => ⟨fun ha' hd' htallies hfield start steps =>
      htallies.track_counts hfield ha' hd' scope budget start resume steps,
      fun frame spec hnode hfails => ⟨exists_update_error_iff.mpr hfails,
        Graph.enter_keeps_values hnode hfails scope budget resume⟩⟩⟩
  · obtain ⟨new, htally, _, hnew⟩ := tally_int id field hold ha' hd' k htotal
    rw [htally, hnew hk]
  · obtain ⟨b, hincreased, hlast⟩ := exists_increased_of_update hupdate hmem honly
    rw [hfield, increased_int id field hold ha hd] at hincreased
    cases hincreased
    exact hlast

/-- A node that is visited until it has counted to three, and one that counts on a number and on a
text. -/
def counterGraph : Graph where
  frame :=
    { name := "counter"
      table := ⟨"count", [("count", .conditional [(⟨"n < 3", .compare .lt (.path ["n"])
        (.literal (.int 3))⟩, .node "count")] (some .finish))], [("count", 10)], [["count"]]⟩
      shape := .empty
      config := .standard
      store := none }
  nodes := [("count", .leaf ⟨"count", none, ⟨.fail, none, none, [], []⟩⟩
      (.passthrough ⟨[], [], [("n", .int 1)]⟩)),
    ("both", .leaf ⟨"both", none, ⟨.fail, none, none, [], []⟩⟩
      (.passthrough ⟨[], [], [("m", .int 1), ("title", .int 1)]⟩))]

theorem counterGraph_tallies : counterGraph.Tallies "count" "n" (.int 1) where
  plain := by decide
  merge := rfl
  node := ⟨_, _, rfl, rfl, by decide, List.mem_singleton.mpr rfl, fun p hp _ => by
    cases List.mem_singleton.mp hp
    rfl⟩
  others := by
    intro other node hnode hother hwrites
    rcases List.mem_cons.mp (GraphNode.mem_of_lookup? hnode) with hcount | hboth
    · exact hother (congrArg Prod.fst hcount)
    · cases List.mem_singleton.mp hboth
      have hmem : "n" ∈ ["m", "title"] := hwrites
      exact absurd hmem (by decide)

/-- The loop counts to three; the other node leaves the number as it is because it cannot add to the
text. -/
theorem counterGraph_counts :
    tally "count" "n" (.int 1) 3 none = .ok (some (.int 3)) ∧
    (∃ r, counterGraph.frame.trackFrom counterGraph.runner? ⟨"t", .standard⟩ none
        (.ofFields [("n", .int 0)]) "count" none 5 = pure r ∧
      r.1 = ["count", "count", "count"] ∧ r.2.2.at? "n" = some (.int 3)) ∧
    (counterGraph.frame.enter counterGraph.runner? ⟨"t", .standard⟩ none
      (.ofFields [("m", .int 1), ("title", .text "a")]) "both" none).Obeys (fun _ => True)
        fun r => r.state.values = [("m", .int 1), ("title", .text "a")] := by
  obtain ⟨_, htally, _, _⟩ := increments_exact "count" "n" .absent (a := 0) (d := 1) (by decide)
    (by decide)
  obtain ⟨_, _, _, hgraph⟩ := increments_exact "count" "n" (.int 0) (d := 1) (by decide)
    (by decide)
  refine ⟨(htally (by decide) (by decide) 3 (by decide) (by decide)).1, ?_, ?_⟩
  · have hwalk := (hgraph counterGraph "count" (.ofFields [("n", .int 0)]) ⟨"t", .standard⟩ none
      none).1 (by decide) (by decide) counterGraph_tallies rfl "count" 5
    obtain ⟨r, hr, htrail, hends⟩ : ∃ r, counterGraph.frame.trackFrom counterGraph.runner?
        ⟨"t", .standard⟩ none (.ofFields [("n", .int 0)]) "count" none 5 = pure r ∧
        r.1 = ["count", "count", "count"] ∧ r.2.1 = .complete :=
      ⟨_, by with_unfolding_all rfl, rfl, rfl⟩
    rw [hr] at hwalk
    refine ⟨r, hr, htrail, ?_⟩
    have htotal := hwalk (by rw [hends]; rintro e ⟨⟩)
    rw [htrail] at htotal
    exact htotal (by decide)
  · refine ((hgraph counterGraph "both" (.ofFields [("m", .int 1), ("title", .text "a")])
      ⟨"t", .standard⟩ none none).2 _ _ rfl ?_).2
    exact ⟨("title", .int 1), List.mem_cons_of_mem _ List.mem_cons_self, _, rfl⟩

/-- Two more than the largest signed integer is an integer that a value can hold, but it is not
what an increment of that integer by two gives. -/
theorem increased_past_signed : Held (9223372036854775807 + 2) ∧
    increased "count" "n" (some (.int 9223372036854775807)) (.int 2) =
      .ok (.float (floatOfInt 9223372036854775807 + floatOfInt 2)) ∧
    increased "count" "n" (some (.int 9223372036854775807)) (.int 2) ≠
      .ok (.int (9223372036854775807 + 2)) := by
  have hincreased := increased_int "count" "n" (.int 9223372036854775807) (d := 2) (by decide)
    (by decide)
  rw [added, if_neg (by decide)] at hincreased
  refine ⟨by decide, hincreased, ?_⟩
  rw [hincreased]
  rintro ⟨⟩

end PassthroughSpec

end WorkflowGraph
