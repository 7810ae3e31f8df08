import WorkflowGraph.Proofs.Activity.Course
import WorkflowGraph.Proofs.Node.Execution

/-!
# The attempts of a node

Every course of the execution of a node is a list of attempts, one after the other, and the account
that is given of them: how many there have been, which errors have been gone on after, and what has
come of it (`NodeFrame.course_attempts_iff`). The attempts end with the first one that succeeds, or
when none is left (`NodeFrame.Tried`). A node that is skipped, or that misses a field, is never
attempted (`NodeFrame.execution_accounts_for_attempts`).
-/

set_option autoImplicit false

namespace WorkflowGraph

open Activity

/-- An attempt of a node as it has gone: the calls that it has made, with their answers, and what it
has come to. -/
structure Try where
  exchanges : List Exchange
  attempt : Attempt

namespace Try

/-- Whether the attempt has come to an outcome. -/
def succeeds (t : Try) : Bool := t.attempt.result.isOk

/-- The records that stand behind an attempt when a node goes on after it: those of the attempt, and
one of its failure where it has failed. -/
def records (f : NodeFrame) (s : State) (t : Try) : List ErrorRecord :=
  match t.attempt.result with
  | .ok _ => t.attempt.errors
  | .error e => t.attempt.errors ++ [f.recovered e s]

theorem succeeds_of_ok {t : Try} {outcome : NodeOutcome} (h : t.attempt.result = .ok outcome) :
    t.succeeds = true := by
  unfold succeeds
  rw [h]
  rfl

theorem succeeds_of_error {t : Try} {e : TaskError} (h : t.attempt.result = .error e) :
    t.succeeds = false := by
  unfold succeeds
  rw [h]
  rfl

end Try

namespace NodeFrame

/-- Whether a node is skipped: it is not entered again, and has outputs that are all there. -/
structure Skips (f : NodeFrame) (s : State) (resume : Option Value) : Prop where
  anew : resume = none
  outputs : f.policy.skipFields ≠ []
  settled : ∀ field ∈ f.policy.skipFields, isSet s field = true

/-- Whether attempts can be those of a node, from the one with some number on, when a number of them
is allowed. Each sees the same state, with the fallback set from the second one on where the node
falls back. There are as many as it takes to the first that succeeds, or else all that are
allowed. -/
structure Tried (f : NodeFrame) (b : Behaviour) (s : State) (scope : Scope) (resume : Option Value)
    (number allowed : Nat) (tries : List Try) : Prop where
  goes : ∀ k t, tries[k]? = some t →
    Course (f.attempt b ⟨s, scope, resume, f.policy.onError == .fallback && 1 < number + k⟩)
      t.exchanges t.attempt
  bounded : tries.length ≤ allowed
  stops : tries.length = (tries.findIdx? Try.succeeds).elim allowed (· + 1)

/-- What a node comes to after a failure when no attempt is left: an error that names the node and
the number of attempts, or an empty update and one more record where the node passes over its
failures. -/
inductive GivesUp (f : NodeFrame) (s : State) (e : TaskError) (attempts : Nat)
    (errors : List ErrorRecord) : NodeRun → Prop where
  | fails (h : f.policy.onError ≠ .skip) :
    GivesUp f s e attempts errors ⟨.error (.nodeExecution f.id attempts e), errors, attempts, false⟩
  | passesOver (h : f.policy.onError = .skip) :
    GivesUp f s e attempts errors ⟨.ok .nothing, errors ++ [f.recovered e s], attempts, false⟩

/-- What a node comes to after its attempts. The records of all attempts before the last one stand
first, then those that the last one has made itself. -/
inductive Concludes (f : NodeFrame) (s : State) (tries : List Try) : NodeRun → Prop where
  | succeeded {before : List Try} {last : Try} {outcome : NodeOutcome}
    (htries : tries = before ++ [last]) (h : last.attempt.result = .ok outcome) :
    Concludes f s tries
      ⟨.ok outcome, before.flatMap (Try.records f s) ++ last.attempt.errors, tries.length, false⟩
  | failed {before : List Try} {last : Try} {e : TaskError} {r : NodeRun}
    (htries : tries = before ++ [last]) (h : last.attempt.result = .error e)
    (hr : f.GivesUp s e tries.length
      (before.flatMap (Try.records f s) ++ last.attempt.errors) r) : Concludes f s tries r

variable {f : NodeFrame} {b : Behaviour} {s : State} {scope : Scope} {resume : Option Value}
  {number allowed : Nat} {tries : List Try} {t : Try} {es : List Exchange} {r : NodeRun}

theorem skips_iff : (resume.isNone && f.isSettled s) = true ↔ f.Skips s resume := by
  rw [Bool.and_eq_true, Option.isNone_iff_eq_none, isSettled_iff]
  exact ⟨fun h => ⟨h.1, h.2.1, h.2.2⟩, fun h => ⟨h.anew, h.outputs, h.settled⟩⟩

theorem givesUp_iff {e : TaskError} {attempts : Nat} {errors : List ErrorRecord} :
    f.GivesUp s e attempts errors r ↔ r = f.giveUp e attempts s errors := by
  unfold giveUp
  constructor
  · rintro (h | h)
    · split
      · next hskip => exact (h hskip).elim
      · rfl
    · rw [h]
  · rintro rfl
    split
    · next hskip => exact .passesOver hskip
    · next hskip => exact .fails fun h => hskip h

theorem concludes_concat_iff (before : List Try) : f.Concludes s (before ++ [t]) r ↔
    r = match t.attempt.result with
      | .ok outcome => ⟨.ok outcome, before.flatMap (Try.records f s) ++ t.attempt.errors,
          before.length + 1, false⟩
      | .error e => f.giveUp e (before.length + 1) s
          (before.flatMap (Try.records f s) ++ t.attempt.errors) := by
  have hlength : (before ++ [t]).length = before.length + 1 := by simp
  constructor
  · rintro (⟨htries, h⟩ | ⟨htries, h, hr⟩)
    · obtain ⟨rfl, rfl⟩ := List.concat_inj.1 (by simpa using htries)
      rw [h, hlength]
    · obtain ⟨rfl, rfl⟩ := List.concat_inj.1 (by simpa using htries)
      rw [h, ← hlength]
      exact givesUp_iff.1 hr
  · rintro rfl
    rw [← hlength]
    cases h : t.attempt.result with
    | ok outcome => exact .succeeded rfl h
    | error e => exact .failed rfl h (givesUp_iff.2 rfl)

/-! ## Attempts one after the other -/

theorem tried_zero_iff : f.Tried b s scope resume number 0 tries ↔ tries = [] := by
  constructor
  · intro h
    exact List.length_eq_zero_iff.1 (Nat.le_zero.1 h.bounded)
  · rintro rfl
    exact ⟨by simp, Nat.le_refl 0, rfl⟩

/-- After an attempt that succeeds there is no other one, and after one that fails an attempt less
is allowed. -/
theorem tried_cons_iff : f.Tried b s scope resume number (allowed + 1) (t :: tries) ↔
    Course (f.attempt b ⟨s, scope, resume, f.policy.onError == .fallback && 1 < number⟩)
      t.exchanges t.attempt ∧
    if t.succeeds then tries = [] else f.Tried b s scope resume (number + 1) allowed tries := by
  have hnumber (k : Nat) : number + (k + 1) = number + 1 + k := by omega
  constructor
  · rintro ⟨hgoes, hbounded, hstops⟩
    refine ⟨hgoes 0 t rfl, ?_⟩
    rw [List.findIdx?_cons] at hstops
    split
    · next ht =>
      rw [if_pos ht] at hstops
      exact List.length_eq_zero_iff.1 (Nat.succ.inj hstops)
    · next ht =>
      rw [if_neg ht] at hstops
      refine ⟨fun k u hu => ?_, Nat.le_of_succ_le_succ hbounded, ?_⟩
      · rw [← hnumber]
        exact hgoes (k + 1) u hu
      · cases hfirst : tries.findIdx? Try.succeeds with
        | none =>
          rw [hfirst] at hstops
          exact Nat.succ.inj hstops
        | some k =>
          rw [hfirst] at hstops
          exact Nat.succ.inj hstops
  · rintro ⟨hfirst, hrest⟩
    split at hrest
    · next ht =>
      subst hrest
      refine ⟨fun k u hu => ?_, by simp, ?_⟩
      · obtain ⟨rfl, rfl⟩ : k = 0 ∧ t = u := by
          cases k with
          | zero => exact ⟨rfl, Option.some.inj hu⟩
          | succ k => cases hu
        exact hfirst
      · rw [List.findIdx?_cons, if_pos ht]
        rfl
    · next ht =>
      refine ⟨fun k u hu => ?_, Nat.succ_le_succ hrest.bounded, ?_⟩
      · cases k with
        | zero =>
          obtain rfl := Option.some.inj hu
          exact hfirst
        | succ k =>
          rw [hnumber]
          exact hrest.goes k u hu
      · rw [List.findIdx?_cons, if_neg ht, List.length_cons, hrest.stops]
        cases tries.findIdx? Try.succeeds <;> rfl

theorem Tried.exists_cons (h : f.Tried b s scope resume number (allowed + 1) tries) :
    ∃ t rest, tries = t :: rest := by
  cases tries with
  | nil =>
    have hstops := h.stops
    cases hstops
  | cons t rest => exact ⟨t, rest, rfl⟩

theorem flatMap_records_concat (before : List Try) {e : TaskError}
    (h : t.attempt.result = .error e) :
    (before ++ [t]).flatMap (Try.records f s) =
      before.flatMap (Try.records f s) ++ t.attempt.errors ++ [f.recovered e s] := by
  rw [List.flatMap_append, List.flatMap_singleton, Try.records, h, List.append_assoc]

/-- After the last attempt nothing happens any more. -/
theorem course_afterAttempt_last_iff (before : List Try) {further : Nat}
    (h : t.succeeds = true ∨ further = 0) :
    Course (f.afterAttempt b s scope resume (before.length + 1)
        (before.flatMap (Try.records f s)) further t.attempt) es r ↔
      es = [] ∧ f.Concludes s (before ++ [t]) r := by
  rw [concludes_concat_iff]
  unfold afterAttempt
  cases hresult : t.attempt.result with
  | ok outcome => exact course_pure_iff
  | error e =>
    rw [Try.succeeds_of_error hresult, or_iff_right Bool.false_ne_true] at h
    subst h
    exact course_pure_iff

/-- After an attempt that fails the node is attempted again; the delay before is no exchange. -/
theorem course_afterAttempt_iff (before : List Try) (further : Nat) (h : t.succeeds = false) :
    Course (f.afterAttempt b s scope resume (before.length + 1)
        (before.flatMap (Try.records f s)) (further + 1) t.attempt) es r ↔
      Course (f.attempts b s scope resume ((before ++ [t]).length + 1)
        ((before ++ [t]).flatMap (Try.records f s)) further) es r := by
  unfold afterAttempt
  cases hresult : t.attempt.result with
  | ok outcome =>
    rw [Try.succeeds_of_ok hresult] at h
    cases h
  | error e =>
    rw [flatMap_records_concat before hresult, List.length_append, List.length_singleton]
    dsimp only
    split
    · constructor
      · intro hcourse
        obtain ⟨front, back, u, hsleep, hback, rfl⟩ := exists_of_course_bind hcourse
        rwa [eq_nil_of_course_sleep hsleep]
      · exact fun hcourse => course_bind (course_sleep _) hcourse
    · exact Iff.rfl

/-- **A course of attempts is accounted for.** The attempts before it are given, with the records
that they have left. By induction on the further attempts that are allowed. -/
theorem course_attempts_iff (before : List Try) (further : Nat) :
    Course (f.attempts b s scope resume (before.length + 1) (before.flatMap (Try.records f s))
        further) es r ↔
      ∃ tries, f.Tried b s scope resume (before.length + 1) (further + 1) tries ∧
        es = tries.flatMap Try.exchanges ∧ f.Concludes s (before ++ tries) r := by
  induction further generalizing before es with
  | zero =>
    rw [attempts_eq]
    constructor
    · intro hcourse
      obtain ⟨front, back, a, hfirst, hback, rfl⟩ := exists_of_course_bind hcourse
      let t : Try := ⟨front, a⟩
      obtain ⟨rfl, hr⟩ := (course_afterAttempt_last_iff (t := t) before (.inr rfl)).1 hback
      refine ⟨[t], tried_cons_iff.2 ⟨hfirst, ?_⟩, by simp [t], hr⟩
      rw [tried_zero_iff, ite_self]
    · rintro ⟨tries, htried, rfl, hr⟩
      obtain ⟨t, rest, rfl⟩ := htried.exists_cons
      obtain ⟨hfirst, hrest⟩ := tried_cons_iff.1 htried
      rw [tried_zero_iff, ite_self] at hrest
      subst hrest
      exact course_bind hfirst ((course_afterAttempt_last_iff before (.inr rfl)).2 ⟨rfl, hr⟩)
  | succ further ih =>
    rw [attempts_eq]
    constructor
    · intro hcourse
      obtain ⟨front, back, a, hfirst, hback, rfl⟩ := exists_of_course_bind hcourse
      let t : Try := ⟨front, a⟩
      cases ht : t.succeeds with
      | true =>
        obtain ⟨rfl, hr⟩ := (course_afterAttempt_last_iff (t := t) before (.inl ht)).1 hback
        refine ⟨[t], tried_cons_iff.2 ⟨hfirst, ?_⟩, by simp [t], hr⟩
        rw [if_pos ht]
      | false =>
        obtain ⟨rest, hrest, rfl, hr⟩ :=
          (ih (before ++ [t])).1 ((course_afterAttempt_iff (t := t) before further ht).1 hback)
        rw [List.length_append, List.length_singleton] at hrest
        rw [List.append_assoc] at hr
        refine ⟨t :: rest, tried_cons_iff.2 ⟨hfirst, ?_⟩, rfl, hr⟩
        rwa [if_neg (by simp [ht])]
    · rintro ⟨tries, htried, rfl, hr⟩
      obtain ⟨t, rest, rfl⟩ := htried.exists_cons
      obtain ⟨hfirst, hrest⟩ := tried_cons_iff.1 htried
      refine course_bind hfirst ?_
      split at hrest
      · next ht =>
        subst hrest
        exact (course_afterAttempt_last_iff before (.inl ht)).2 ⟨rfl, hr⟩
      · next ht =>
        have hfails : t.succeeds = false := by simpa using ht
        rw [course_afterAttempt_iff before further hfails, ih]
        refine ⟨rest, ?_, rfl, ?_⟩
        · rwa [List.length_append, List.length_singleton]
        · rwa [List.append_assoc]

/-! ## Executions -/

/-- Where the last attempt has failed, all attempts have. -/
theorem Tried.all_fail {before : List Try} {last : Try}
    (h : f.Tried b s scope resume number allowed (before ++ [last]))
    (hlast : last.succeeds = false) : ∀ t ∈ before ++ [last], t.succeeds = false := by
  have hstops := h.stops
  cases hfirst : (before ++ [last]).findIdx? Try.succeeds with
  | none => exact List.findIdx?_eq_none_iff.1 hfirst
  | some k =>
    rw [hfirst, List.length_append, List.length_singleton] at hstops
    obtain rfl : before.length = k := Nat.succ.inj hstops
    obtain ⟨hk, hsucceeds, -⟩ := List.findIdx?_eq_some_iff_getElem.1 hfirst
    rw [List.getElem_concat_length rfl, hlast] at hsucceeds
    cases hsucceeds

/-- An execution fails just where all attempts have failed and failures are not passed over. -/
theorem Concludes.error_iff (htried : f.Tried b s scope resume number allowed tries)
    (h : f.Concludes s tries r) : (∃ e, r.result = .error e) ↔
      f.policy.onError ≠ .skip ∧ ∀ t ∈ tries, t.succeeds = false := by
  cases h with
  | @succeeded before last outcome htries h =>
    refine ⟨fun ⟨e, he⟩ => (by cases he), fun ⟨_, hall⟩ => ?_⟩
    have hlast := hall last (by simp [htries])
    rw [Try.succeeds_of_ok h] at hlast
    cases hlast
  | @failed before last e r htries h hr =>
    subst htries
    have hall := htried.all_fail (Try.succeeds_of_error h)
    cases hr with
    | fails hskip => exact ⟨fun _ => ⟨hskip, hall⟩, fun _ => ⟨_, rfl⟩⟩
    | passesOver hskip =>
      exact ⟨fun ⟨e, he⟩ => (by cases he), fun ⟨hfails, _⟩ => (hfails hskip).elim⟩

/-- **Every attempt is accounted for.** A node that is skipped, or that misses a required field,
comes to its result without an attempt, whatever it would do in one. In every other case, the
courses of its execution are exactly those of its attempts, one after the other, each on the same
state: as many as it takes to the first that succeeds, or all that its policy allows, of which there
is at least one. Their account is the result of the execution. It is an error just where no attempt
has succeeded and the policy does not pass over failures. -/
theorem execution_accounts_for_attempts (f : NodeFrame) (b : Behaviour) (s : State) (scope : Scope)
    (resume : Option Value) :
    (f.Skips s resume → f.execute b s scope resume = pure ⟨.ok .nothing, [], 0, true⟩) ∧
    (¬ f.Skips s resume → ∀ (present : List String) (field : String) (others : List String),
      f.policy.requires = present ++ field :: others →
      (∀ other ∈ present, isSet s other = true) → isSet s field = false →
      ∃ r, f.GivesUp s (.failed f.id ("required field " ++ ticked field ++ " is not populated"))
          0 [] r ∧ f.execute b s scope resume = pure r) ∧
    (¬ f.Skips s resume → (∀ field ∈ f.policy.requires, isSet s field = true) → ∀ es r,
      Course (f.execute b s scope resume) es r ↔
        ∃ tries, f.Tried b s scope resume 1
            (max 1 (f.policy.maxAttempts scope.config.retry.maxRetries)) tries ∧
          es = tries.flatMap Try.exchanges ∧ f.Concludes s tries r) ∧
    ∀ (tries : List Try) (r : NodeRun), f.Tried b s scope resume 1
        (max 1 (f.policy.maxAttempts scope.config.retry.maxRetries)) tries →
      f.Concludes s tries r →
      ((∃ e, r.result = .error e) ↔
        f.policy.onError ≠ .skip ∧ ∀ t ∈ tries, t.succeeds = false) := by
  refine ⟨fun hskips => ?_, fun hskips present field others hrequires hpresent hfield => ?_,
    fun hskips hready es r => ?_, fun tries r htried h => h.error_iff htried⟩
  · unfold execute
    rw [if_pos (skips_iff.2 hskips)]
  · have hmissing : f.missing? s = some field := by
      rw [missing?, hrequires, List.find?_append]
      have hnone : present.find? (fun field => !isSet s field) = none := by
        simpa using hpresent
      rw [hnone, Option.none_or, List.find?_cons_of_pos (by simp [hfield])]
    unfold execute
    rw [if_neg (mt skips_iff.1 hskips), hmissing]
    exact ⟨_, givesUp_iff.2 rfl, rfl⟩
  · have hmissing : f.missing? s = none := by
      rw [missing?, List.find?_eq_none]
      intro field hfield
      simp [hready field hfield]
    have hallowed (n : Nat) : n - 1 + 1 = max 1 n := by omega
    unfold execute
    rw [if_neg (mt skips_iff.1 hskips), hmissing, ← hallowed]
    exact course_attempts_iff [] _

end NodeFrame

/-! ## A node that falls back -/

/-- A node with another executor to fall back to. -/
def backedFrame : NodeFrame := ⟨"work", none, ⟨.fallback, none, none, [], []⟩⟩

/-- It works only where it falls back. -/
def backedBehaviour : Behaviour := fun v =>
  pure (.of (if v.fallback then .ok .nothing else .error (.failed "work" "down")))

/-- The first attempt fails, and the second one falls back. -/
theorem backed_node_is_accounted :
    Course (backedFrame.execute backedBehaviour .blank ⟨"t", .standard⟩ none) []
      ⟨.ok .nothing, [.recovered "work" (TaskError.failed "work" "down").message 0], 2, false⟩ := by
  have hskips : ¬ backedFrame.Skips .blank none := fun h => h.outputs rfl
  have hready : ∀ field ∈ backedFrame.policy.requires, NodeFrame.isSet .blank field = true := by
    rintro _ ⟨⟩
  let first : Try := ⟨[], .of (.error (.failed "work" "down"))⟩
  let second : Try := ⟨[], .of (.ok .nothing)⟩
  have htries : [first, second] = [first] ++ [second] := rfl
  refine ((NodeFrame.execution_accounts_for_attempts backedFrame backedBehaviour .blank
    ⟨"t", .standard⟩ none).2.2.1 hskips hready [] _).2 ⟨[first, second], ⟨?_, by decide, rfl⟩, rfl,
      .succeeded htries rfl⟩
  rintro (_ | _ | k) t ht
  · obtain rfl := Option.some.inj ht
    exact .done _
  · obtain rfl := Option.some.inj ht
    exact .done _
  · cases ht

end WorkflowGraph
