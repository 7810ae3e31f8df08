import WorkflowGraph.Graph.Basic
import WorkflowGraph.Node.Execution
import WorkflowGraph.Proofs.Activity.Meets

/-!
# What the execution of a node comes to

Whatever a node does in its attempts, its execution comes to an outcome of one of them, to nothing
where the node is skipped, or to an error that names the node (`NodeFrame.execute_meets`). It
suspends only with a suspension of its last attempt, and in the state that this attempt has left.
What it can come to is listed case by case (`NodeFrame.execute_comes`), so that what holds of the
outcomes of its attempts holds of its own outcome (`NodeFrame.execute_yields`).

A node without another node inside it calls executors and tools, and nothing else: it never
touches a store, and starts no task (`Action.behaviour_obeys`). Of these nodes only an interrupt
suspends, and always for its own resume key.
-/

set_option autoImplicit false

namespace WorkflowGraph

open Activity

/-- Whether an attempt suspends only as it may. -/
def Attempt.SuspendsOnly (may : Suspension → Prop) (a : Attempt) : Prop :=
  ∀ s, a.result = .ok (.suspend s) → may s

/-- Whether the execution of a node suspends only as it may, and fails only in the name of a
node. -/
structure NodeRun.Regular (may : Suspension → Prop) (r : NodeRun) : Prop where
  suspends : ∀ s, r.result = .ok (.suspend s) → may s
  fails : ∀ e, r.result = .error e → ∃ node attempts cause, e = .nodeExecution node attempts cause

namespace NodeFrame

/-- A node is settled where it has outputs, all of which are there. -/
theorem isSettled_iff {f : NodeFrame} {s : State} : f.isSettled s = true ↔
    f.policy.skipFields ≠ [] ∧ ∀ field ∈ f.policy.skipFields, isSet s field = true := by
  unfold isSettled
  rw [Bool.and_eq_true, List.all_eq_true, Bool.not_eq_true', List.isEmpty_eq_false_iff]

variable {M : Type} {R : Regime M} {keep : M → Prop} {may : Suspension → M → Prop}

/-- What holds in the state that a result comes with: what a suspension asks for where it is one,
and what is to be kept otherwise. -/
def Ends {ε : Type} (keep : M → Prop) (may : Suspension → M → Prop) (r : Except ε NodeOutcome)
    (m : M) : Prop :=
  match r with
  | .ok (.suspend s) => may s m
  | _ => keep m

theorem giveUp_regular (f : NodeFrame) (e : TaskError) (attempts : Nat) (s : State)
    (errors : List ErrorRecord) {k : M} (hk : keep k) :
    Ends keep may (f.giveUp e attempts s errors).result k ∧
      (f.giveUp e attempts s errors).Regular (may · k) := by
  unfold giveUp
  split
  · exact ⟨hk, by rintro _ ⟨⟩, by rintro _ ⟨⟩⟩
  · refine ⟨hk, by rintro _ ⟨⟩, ?_⟩
    rintro _ ⟨⟩
    exact ⟨_, _, _, rfl⟩

theorem regular_of_outcome {outcome : NodeOutcome} {k : M}
    (h : Ends keep may (.ok outcome : Except TaskError NodeOutcome) k) (errors : List ErrorRecord)
    (attempts : Nat) (skipped : Bool) :
    Ends keep may (.ok outcome : Except RunError NodeOutcome) k ∧
      NodeRun.Regular (may · k) ⟨.ok outcome, errors, attempts, skipped⟩ := by
  cases outcome with
  | proceed update => exact ⟨h, by rintro _ ⟨⟩, by rintro _ ⟨⟩⟩
  | suspend s =>
    refine ⟨h, ?_, by rintro _ ⟨⟩⟩
    rintro _ ⟨⟩
    exact h

/-- What a behaviour meets in an attempt: it suspends only as it may in the state that it leaves,
and keeps what is to be kept otherwise. -/
def AttemptMeets (R : Regime M) (keep : M → Prop) (may : Suspension → M → Prop)
    (p : Activity Attempt) (m : M) : Prop :=
  p.Meets R keep (fun a k => Ends keep may a.result k) m

/-- An attempt with the time that it may take. -/
def limited (f : NodeFrame) (scope : Scope) (p : Activity Attempt) : Activity Attempt :=
  match f.limit? scope with
  | none => p
  | some limit => do
    match ← p.within limit.wholeMillis with
    | some (a, _) => pure a
    | none => pure (.of (.error (.timeout f.id limit)))

/-- What is left of an execution after an attempt. -/
def afterAttempt (f : NodeFrame) (b : Behaviour) (s : State) (scope : Scope)
    (resume : Option Value) (number : Nat) (errors : List ErrorRecord) (further : Nat)
    (a : Attempt) : Activity NodeRun :=
  match a.result, further with
  | .ok outcome, _ => pure ⟨.ok outcome, errors ++ a.errors, number, false⟩
  | .error e, 0 => pure (f.giveUp e number s (errors ++ a.errors))
  | .error e, further + 1 => do
    if f.policy.onError = .retry then
      Activity.sleep (scope.config.retry.delay (number - 1)).wholeMillis
    f.attempts b s scope resume (number + 1) (errors ++ a.errors ++ [f.recovered e s]) further

/-- An execution is one attempt and what is left after it. -/
theorem attempts_eq (f : NodeFrame) (b : Behaviour) (s : State) (scope : Scope)
    (resume : Option Value) (number : Nat) (errors : List ErrorRecord) (further : Nat) :
    f.attempts b s scope resume number errors further =
      f.limited scope (b (attempts.visit f s scope resume number)) >>=
        f.afterAttempt b s scope resume number errors further := by
  cases further with
  | zero =>
    unfold attempts
    congr 1
    funext a
    unfold afterAttempt
    cases a.result <;> rfl
  | succ further =>
    conv => lhs; unfold attempts
    congr 1
    funext a
    unfold afterAttempt
    cases a.result <;> rfl

theorem limited_meets {f : NodeFrame} {scope : Scope} {p : Activity Attempt} {m : M}
    (h : AttemptMeets R keep may p m) : AttemptMeets R keep may (f.limited scope p) m := by
  unfold limited
  split
  · exact h
  · apply meets_bind (h.within _)
    rintro (_ | ⟨a, left⟩) k hk
    · exact hk
    · exact hk

/-- After a failed attempt what is to be kept has been kept, so that a further one may start. -/
theorem afterAttempt_meets {f : NodeFrame} {b : Behaviour} {s : State} {scope : Scope}
    {resume : Option Value} {number further : Nat} {errors : List ErrorRecord} {a : Attempt} {k : M}
    (ha : Ends keep may a.result k)
    (hfurther : ∀ n errors, further = n + 1 → keep k →
      (f.attempts b s scope resume (number + 1) errors n).Meets R keep
        (fun r k => Ends keep may r.result k ∧ r.Regular (may · k)) k) :
    (f.afterAttempt b s scope resume number errors further a).Meets R keep
      (fun r k => Ends keep may r.result k ∧ r.Regular (may · k)) k := by
  unfold afterAttempt
  cases hr : a.result with
  | ok outcome =>
    rw [hr] at ha
    exact regular_of_outcome ha _ _ _
  | error e =>
    rw [hr] at ha
    have hkeep : keep k := ha
    cases further with
    | zero => exact giveUp_regular _ _ _ _ _ hkeep
    | succ n =>
      dsimp only
      split
      · apply meets_bind (meets_sleep _ hkeep)
        rintro _ _ rfl
        exact hfurther n _ rfl hkeep
      · exact hfurther n _ rfl hkeep

/-- By induction on the number of further attempts. -/
theorem attempts_meets {f : NodeFrame} {b : Behaviour} {s : State} {scope : Scope}
    {resume : Option Value}
    (hb : ∀ v : Visit, v.state = s → v.scope = scope → v.resume = resume →
      ∀ m, keep m → AttemptMeets R keep may (b v) m)
    (number : Nat) (errors : List ErrorRecord) (further : Nat) {m : M} (hm : keep m) :
    (f.attempts b s scope resume number errors further).Meets R keep
      (fun r k => Ends keep may r.result k ∧ r.Regular (may · k)) m := by
  induction further generalizing number errors m with
  | zero =>
    rw [attempts_eq]
    apply meets_bind (limited_meets (hb (attempts.visit f s scope resume number) rfl rfl rfl m hm))
    intro a k ha
    apply afterAttempt_meets ha
    rintro _ _ ⟨⟩
  | succ further ih =>
    rw [attempts_eq]
    apply meets_bind (limited_meets (hb (attempts.visit f s scope resume number) rfl rfl rfl m hm))
    intro a k ha
    apply afterAttempt_meets ha
    rintro _ errors ⟨⟩ hkeep
    exact ih _ errors hkeep

/-- The execution of a node ends as its attempts end, and regularly. -/
theorem execute_meets {f : NodeFrame} {b : Behaviour} {s : State} {scope : Scope}
    {resume : Option Value}
    (hb : ∀ v : Visit, v.state = s → v.scope = scope → v.resume = resume →
      ∀ m, keep m → AttemptMeets R keep may (b v) m) {m : M} (hm : keep m) :
    (f.execute b s scope resume).Meets R keep
      (fun r k => Ends keep may r.result k ∧ r.Regular (may · k)) m := by
  unfold execute
  split
  · have hnothing : Ends keep may (.ok .nothing : Except TaskError NodeOutcome) m := hm
    exact regular_of_outcome hnothing _ _ _
  · split
    · exact giveUp_regular _ _ _ _ _ hm
    · exact attempts_meets hb _ _ _ hm

/-! ## Outcomes of attempts -/

section Yields

variable {f : NodeFrame} {b : Behaviour} {s : State} {scope : Scope} {resume : Option Value}
  {Q : NodeOutcome → Prop}

/-- Whether a result, where it is an outcome, is one of those given. -/
def Yields {ε : Type} (Q : NodeOutcome → Prop) (r : Except ε NodeOutcome) : Prop :=
  ∀ outcome, r = .ok outcome → Q outcome

theorem giveUp_yields (hnothing : f.policy.onError = .skip → Q .nothing) (e : TaskError)
    (attempts : Nat) (errors : List ErrorRecord) :
    Yields Q (f.giveUp e attempts s errors).result := by
  unfold giveUp
  split
  · next hskip =>
    rintro _ ⟨⟩
    exact hnothing hskip
  · rintro _ ⟨⟩

theorem attempt_yields {v : Visit}
    (hb : (b v).Obeys (fun _ => True) fun a => Yields Q a.result) :
    (f.attempt b v).Obeys (fun _ => True) fun a => Yields Q a.result := by
  unfold attempt
  split
  · exact hb
  · refine obeys_bind (hb.within _) ?_
    rintro (_ | ⟨a, spent⟩) ha
    · rintro _ ⟨⟩
    · exact ha _ rfl

/-- Everything that the execution of a node can come to: nothing where it is skipped, what is left
after a failure, or an outcome of one of its attempts. -/
inductive Comes (f : NodeFrame) (s : State) (resume : Option Value) (Q : NodeOutcome → Prop) :
    NodeRun → Prop where
  | skipped (hskips : resume = none ∧ f.isSettled s = true) :
    Comes f s resume Q ⟨.ok .nothing, [], 0, true⟩
  | gaveUp (hentered : ¬ (resume = none ∧ f.isSettled s = true)) (e : TaskError) (attempts : Nat)
    (errors : List ErrorRecord) : Comes f s resume Q (f.giveUp e attempts s errors)
  | came (hentered : ¬ (resume = none ∧ f.isSettled s = true)) {outcome : NodeOutcome}
    (h : Q outcome) (attempts : Nat) (errors : List ErrorRecord) :
    Comes f s resume Q ⟨.ok outcome, errors, attempts, false⟩

theorem Comes.imp {Q' : NodeOutcome → Prop} {r : NodeRun} (h : f.Comes s resume Q r)
    (hQ : ∀ outcome, Q outcome → Q' outcome) : f.Comes s resume Q' r := by
  cases h with
  | skipped hskips => exact .skipped hskips
  | gaveUp hentered => exact .gaveUp hentered _ _ _
  | came hentered h => exact .came hentered (hQ _ h) _ _

/-- By induction on the attempts that are left. -/
theorem attempts_comes (hentered : ¬ (resume = none ∧ f.isSettled s = true))
    (hb : ∀ v : Visit, v.state = s → v.resume = resume →
      (b v).Obeys (fun _ => True) fun a => Yields Q a.result)
    (number : Nat) (errors : List ErrorRecord) (further : Nat) :
    (f.attempts b s scope resume number errors further).Obeys (fun _ => True)
      (f.Comes s resume Q) := by
  induction further generalizing number errors with
  | zero =>
    refine obeys_bind (attempt_yields (hb _ rfl rfl)) fun a ha => ?_
    cases hresult : a.result with
    | ok outcome => exact .came hentered (ha outcome hresult) _ _
    | error e => exact .gaveUp hentered _ _ _
  | succ further ih =>
    refine obeys_bind (attempt_yields (hb _ rfl rfl)) fun a ha => ?_
    cases hresult : a.result with
    | ok outcome => exact .came hentered (ha outcome hresult) _ _
    | error e =>
      dsimp only
      split
      · exact obeys_bind (obeys_trivial _) fun _ _ => ih _ _
      · exact ih _ _

/-- The execution of a node comes to nothing else. -/
theorem execute_comes
    (hb : ∀ v : Visit, v.state = s → v.resume = resume →
      (b v).Obeys (fun _ => True) fun a => Yields Q a.result) :
    (f.execute b s scope resume).Obeys (fun _ => True) (f.Comes s resume Q) := by
  unfold execute
  split
  · next hsettled =>
    rw [Bool.and_eq_true, Option.isNone_iff_eq_none] at hsettled
    exact .skipped hsettled
  · next hentered =>
    rw [Bool.and_eq_true, Option.isNone_iff_eq_none] at hentered
    split
    · exact .gaveUp hentered _ _ _
    · exact attempts_comes hentered hb _ _ _

theorem Comes.yields (hnothing : f.policy.skipFields ≠ [] ∨ f.policy.onError = .skip → Q .nothing)
    {r : NodeRun} (h : f.Comes s resume Q r) : Yields Q r.result := by
  cases h with
  | skipped hskips =>
    rintro _ ⟨⟩
    exact hnothing (.inl (isSettled_iff.1 hskips.2).1)
  | gaveUp _ e attempts errors =>
    exact giveUp_yields (fun hskip => hnothing (.inr hskip)) e attempts errors
  | came _ h =>
    rintro _ ⟨⟩
    exact h

/-- The execution of a node comes to an outcome of one of its attempts, to nothing where the node may
be skipped or goes on after a failure, or to an error. -/
theorem execute_yields
    (hnothing : f.policy.skipFields ≠ [] ∨ f.policy.onError = .skip → Q .nothing)
    (hb : ∀ v : Visit, v.state = s → (b v).Obeys (fun _ => True) fun a => Yields Q a.result) :
    (f.execute b s scope resume).Obeys (fun _ => True) fun r => Yields Q r.result :=
  (execute_comes fun v hv _ => hb v hv).mono (fun _ h => h) fun _ hr => hr.yields hnothing

end Yields

/-! ## Nodes that are entered again -/

/-- The execution of a node that is entered again with a value, from its first attempt on. -/
def reexecute (f : NodeFrame) (b : Behaviour) (s : State) (scope : Scope) (value : Value)
    (p : Activity Attempt) : Activity NodeRun :=
  f.limited scope p >>= f.afterAttempt b s scope (some value) 1 []
    (f.policy.maxAttempts scope.config.retry.maxRetries - 1)

theorem execute_some {f : NodeFrame} {s : State} (hmissing : f.missing? s = none) (b : Behaviour)
    (scope : Scope) (value : Value) :
    f.execute b s scope (some value) =
      f.reexecute b s scope value (b ⟨s, scope, some value, false⟩) := by
  unfold execute
  rw [hmissing]
  dsimp only
  rw [attempts_eq, if_neg]
  · unfold reexecute attempts.visit
    simp
  · simp

theorem reexecute_pure (f : NodeFrame) (b : Behaviour) (s : State) (scope : Scope) (value : Value)
    (outcome : NodeOutcome) :
    f.reexecute b s scope value (pure (.of (.ok outcome))) = pure ⟨.ok outcome, [], 1, false⟩ := by
  unfold reexecute limited
  cases f.limit? scope with
  | none => rfl
  | some limit => rfl

end NodeFrame

end WorkflowGraph

/-! ## What actions ask for -/

namespace WorkflowGraph

open Activity

/-- Whether a call goes to an executor or a tool. -/
def Call.IsOutside : Call → Prop
  | .task _ _ => True
  | .tool _ _ => True
  | _ => False

/-- Whether an action may come to a suspension: an interrupt, to one with its own resume key. -/
def Action.MaySuspend (action : Action) (s : Suspension) : Prop :=
  ∃ node message, action = .interrupt node ∧ s = node.suspension message

variable {only : Suspension → Prop}

theorem suspendsOnly_of_map_proceed {α : Type} (result : Except TaskError α)
    (update : α → Update) :
    (Attempt.of (result.map fun a => .proceed (update a))).SuspendsOnly only := by
  cases result with
  | error e => rintro s ⟨⟩
  | ok a => rintro s ⟨⟩

theorem TaskBinding.call_obeys (b : TaskBinding) (v : Visit) (r : TaskRequest) :
    (b.call v r).Obeys Call.IsOutside fun _ => True :=
  obeys_callTask trivial

theorem TransformNode.behaviour_obeys (n : TransformNode) (id : String) (v : Visit) :
    (n.behaviour id v).Obeys Call.IsOutside (Attempt.SuspendsOnly only) := by
  have hcall : (n.call id v).Obeys Call.IsOutside fun _ => True := by
    unfold TransformNode.call
    dsimp only
    split
    · exact TaskBinding.call_obeys _ _ _
    · exact obeys_callTool trivial
  exact obeys_bind hcall fun result _ => suspendsOnly_of_map_proceed result _

theorem RouterNode.behaviour_obeys (n : RouterNode) (id : String) (v : Visit) :
    (n.behaviour id v).Obeys Call.IsOutside (Attempt.SuspendsOnly only) := by
  unfold RouterNode.behaviour
  split
  · rintro s ⟨⟩
  · exact obeys_bind (TaskBinding.call_obeys _ _ _) fun result _ =>
      suspendsOnly_of_map_proceed result _

theorem PassthroughSpec.behaviour_obeys (spec : PassthroughSpec) (id : String) (v : Visit) :
    (spec.behaviour id v).Obeys Call.IsOutside (Attempt.SuspendsOnly only) :=
  suspendsOnly_of_map_proceed (spec.update id v.state) fun update => update

namespace AgentNode

theorem answers_obeys (n : AgentNode) (calls : List ToolCall) :
    (n.answers calls).Obeys Call.IsOutside fun _ => True := by
  induction calls with
  | nil => trivial
  | cons c rest ih =>
    have hanswer : (n.answer c).Obeys Call.IsOutside fun _ => True := by
      unfold answer
      split
      · trivial
      · exact obeys_bind (obeys_callTool trivial) fun _ _ => trivial
    exact obeys_bind hanswer fun _ _ => obeys_bind ih fun _ _ => trivial

/-- A conversation asks its executor and its tools. By induction on the turns that are left. -/
theorem converse_obeys (n : AgentNode) (id : String) (v : Visit) (history : List Message)
    (values : Fields) (t : Transcript) (turns : Nat) :
    (n.converse id v history values t turns).Obeys Call.IsOutside fun _ => True := by
  induction turns generalizing t with
  | zero => trivial
  | succ turns ih =>
    unfold converse
    refine obeys_bind (TaskBinding.call_obeys _ _ _) ?_
    rintro (e | value) _
    · trivial
    · dsimp only
      split
      · trivial
      · split
        · trivial
        · exact obeys_bind (n.answers_obeys _) fun _ _ => ih _

theorem behaviour_obeys (n : AgentNode) (id : String) (v : Visit) :
    (n.behaviour id v).Obeys Call.IsOutside (Attempt.SuspendsOnly only) :=
  obeys_bind (n.converse_obeys _ _ _ _ _ _) fun result _ => suspendsOnly_of_map_proceed result _

end AgentNode

theorem InterruptNode.behaviour_obeys (n : InterruptNode) (id : String) (v : Visit) :
    (n.behaviour id v).Obeys Call.IsOutside
      (Attempt.SuspendsOnly fun s => ∃ message, s = n.suspension message) := by
  unfold InterruptNode.behaviour
  split
  · rintro s ⟨⟩
  · have hmessage : (n.message id v).Obeys Call.IsOutside fun _ => True := by
      unfold InterruptNode.message
      split
      · trivial
      · split
        · trivial
        · exact TaskBinding.call_obeys _ _ _
    refine obeys_bind hmessage ?_
    rintro (e | message) _
    · rintro s ⟨⟩
    · rintro s ⟨⟩
      exact ⟨message, rfl⟩

theorem Action.behaviour_obeys (action : Action) (id : String) (v : Visit) :
    (action.behaviour id v).Obeys Call.IsOutside (Attempt.SuspendsOnly action.MaySuspend) := by
  cases action with
  | transform node => exact node.behaviour_obeys id v
  | router node => exact node.behaviour_obeys id v
  | agent node => exact node.behaviour_obeys id v
  | passthrough spec => exact spec.behaviour_obeys id v
  | interrupt node =>
    refine (node.behaviour_obeys id v).mono (fun _ hc => hc) fun a ha s hs => ?_
    obtain ⟨message, rfl⟩ := ha s hs
    exact ⟨node, message, rfl, rfl⟩

end WorkflowGraph
