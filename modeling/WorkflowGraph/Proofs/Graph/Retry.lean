import WorkflowGraph.Proofs.Activity.Converging
import WorkflowGraph.Proofs.Compiler.Wiring
import WorkflowGraph.Proofs.Graph.Coherence
import WorkflowGraph.Proofs.Graph.Grounded
import WorkflowGraph.Proofs.Node.FanOut

/-!
# Retried nodes

A node that is retried makes the same attempt again, in the world that the one before has left
(`GraphNode.Fails`). An attempt comes to the same in two idle worlds, unless the node enters a graph
again whose threads have been left in another way (`GraphNode.attempt_same`). So attempts that have
failed go unnoticed but for the errors that are recorded, unless they have moved on the thread that
waits for the answer: this one refuses it in all further attempts
(`retry_is_transparent_unless_moved_on`).
-/

set_option autoImplicit false

namespace WorkflowGraph

open Activity

variable {σ : Type}

/-! ## Hosts that work again -/

/-- Whether a host answers from a memory on as another one does, which is a function of what it is
asked. -/
def Host.Becomes (host : Host σ) (memory : σ) (answers : Host Unit) : Prop :=
  ∃ like : Unit → σ → Prop, like () memory ∧ answers.Follows like host

/-- Where nothing is under way, a delay takes time and nothing else. -/
theorem World.sleep_of_idle {w : World σ} (hidle : w.crew.strands = []) (host : Host σ)
    (span : Nat) : ((Activity.sleep span).run host w).2 = { w with clock := w.clock + span } := by
  unfold Activity.sleep
  split
  · next hspan =>
    rw [hspan]
    rfl
  · exact World.pass_of_strands_eq_nil host span w hidle

/-- A world with a host that remembers nothing. -/
def World.plain (w : World σ) : World Unit :=
  { clock := w.clock, memory := (), storage := w.storage, crew := w.crew }

/-! ## Attempts -/

namespace NodeFrame

variable {f : NodeFrame} {b : Behaviour} {s : State} {scope : Scope} {resume : Option Value}
  {host : Host σ}

/-- Whether a node is attempted at all: it is not skipped, and misses no field. -/
structure Due (f : NodeFrame) (s : State) (resume : Option Value) : Prop where
  enters : ¬ (resume.isNone && f.isSettled s) = true
  ready : f.missing? s = none

theorem Due.execute (h : f.Due s resume) (b : Behaviour) (scope : Scope) :
    f.execute b s scope resume =
      f.attempts b s scope resume 1 []
        (f.policy.maxAttempts scope.config.retry.maxRetries - 1) := by
  unfold NodeFrame.execute
  rw [if_neg h.enters, h.ready]

/-- A node that is retried makes the same attempt every time. -/
theorem run_attempts (hretry : f.policy.onError = .retry) (number : Nat)
    (errors : List ErrorRecord) (further : Nat) (host : Host σ) (w : World σ) :
    (f.attempts b s scope resume number errors further).run host w =
      (f.afterAttempt b s scope resume number errors further
        ((f.limited scope (b ⟨s, scope, resume, false⟩)).run host w).1).run host
          ((f.limited scope (b ⟨s, scope, resume, false⟩)).run host w).2 := by
  have hvisit : attempts.visit f s scope resume number = ⟨s, scope, resume, false⟩ := by
    unfold attempts.visit
    rw [hretry]
    rfl
  rw [attempts_eq, hvisit]
  exact run_bind _ _ _ _

/-- An attempt that has come to an outcome is the last one. -/
theorem run_attempts_ok (hretry : f.policy.onError = .retry) {w : World σ} {outcome : NodeOutcome}
    {recovered : List ErrorRecord}
    (h : ((f.limited scope (b ⟨s, scope, resume, false⟩)).run host w).1 = ⟨.ok outcome, recovered⟩)
    (number : Nat) (errors : List ErrorRecord) (further : Nat) :
    (f.attempts b s scope resume number errors further).run host w =
      (⟨.ok outcome, errors ++ recovered, number, false⟩,
        ((f.limited scope (b ⟨s, scope, resume, false⟩)).run host w).2) := by
  rw [run_attempts hretry, h]
  rfl

/-- After an attempt that has failed, a node is attempted again after a delay. -/
theorem run_afterAttempt (hretry : f.policy.onError = .retry) {a : Attempt} {e : TaskError}
    (hfailed : a.result = .error e) (number : Nat) (errors : List ErrorRecord) (further : Nat)
    (host : Host σ) (w : World σ) :
    (f.afterAttempt b s scope resume number errors (further + 1) a).run host w =
      (f.attempts b s scope resume (number + 1) (errors ++ a.errors ++ [f.recovered e s])
        further).run host
          ((Activity.sleep (scope.config.retry.delay (number - 1)).wholeMillis).run host w).2 := by
  unfold afterAttempt
  rw [hfailed]
  dsimp only
  rw [if_pos hretry]
  exact run_bind _ _ _ _

/-- The number of attempts does not fall behind that of the first one. By induction on those that
are left. -/
theorem le_attempts (number : Nat) (errors : List ErrorRecord) (further : Nat) :
    (f.attempts b s scope resume number errors further).Obeys (fun _ => True)
      fun r => number ≤ r.attempts := by
  have hgiveUp (e : TaskError) (number : Nat) (errors : List ErrorRecord) :
      (f.giveUp e number s errors).attempts = number := by
    unfold giveUp
    split <;> rfl
  induction further generalizing number errors with
  | zero =>
    rw [attempts_eq]
    refine obeys_bind (obeys_trivial _) fun a _ => ?_
    unfold afterAttempt
    cases a.result with
    | ok outcome => exact Nat.le_refl _
    | error e => exact (hgiveUp e number _).ge
  | succ further ih =>
    rw [attempts_eq]
    refine obeys_bind (obeys_trivial _) fun a _ => ?_
    unfold afterAttempt
    cases a.result with
    | ok outcome => exact Nat.le_refl _
    | error e =>
      have hlater := (ih (number + 1) (errors ++ a.errors ++ [f.recovered e s])).mono
        (fun _ h => h) fun _ hr => Nat.le_of_succ_le hr
      dsimp only
      split
      · exact obeys_bind (obeys_trivial _) fun _ _ => hlater
      · exact hlater

/-- An execution that has come to an outcome in its first attempt is this attempt. -/
theorem execute_first (hretry : f.policy.onError = .retry) {w : World σ} {outcome : NodeOutcome}
    {recovered : List ErrorRecord}
    (h : ((f.execute b s scope resume).run host w).1 = ⟨.ok outcome, recovered, 1, false⟩) :
    f.Due s resume ∧
      ((f.limited scope (b ⟨s, scope, resume, false⟩)).run host w).1 =
        ⟨.ok outcome, recovered⟩ := by
  have hdue : f.Due s resume := by
    refine ⟨fun hskips => ?_, ?_⟩
    · unfold execute at h
      rw [if_pos hskips] at h
      cases h
    · cases hmissing : f.missing? s with
      | none => rfl
      | some field =>
        unfold execute giveUp at h
        rw [hretry, hmissing] at h
        split at h
        · cases h
        · cases h
  refine ⟨hdue, ?_⟩
  rw [hdue.execute, run_attempts hretry] at h
  generalize (f.limited scope (b ⟨s, scope, resume, false⟩)).run host w = r at h ⊢
  obtain ⟨⟨result, errors⟩, left⟩ := r
  cases result with
  | ok reached =>
    cases h
    rfl
  | error e =>
    -- The node has given up, or a further attempt has been counted.
    generalize f.policy.maxAttempts scope.config.retry.maxRetries - 1 = further at h
    cases further with
    | zero =>
      unfold afterAttempt giveUp at h
      rw [hretry] at h
      cases h
    | succ further =>
      rw [run_afterAttempt hretry rfl] at h
      have hcounted : 1 + 1 ≤ (⟨.ok outcome, recovered, 1, false⟩ : NodeRun).attempts := by
        rw [← h]
        exact (le_attempts _ _ _).run host _
      exact absurd hcounted (Nat.not_succ_le_self 1)

end NodeFrame

namespace GraphNode

variable {node : GraphNode} {s : State} {scope : Scope} {resume : Option Value} {host : Host σ}
  {w x : World σ} {f : Nat} {errors : List ErrorRecord}

/-- One attempt of a node that has nothing to fall back to. -/
def attempt (node : GraphNode) (s : State) (scope : Scope) (resume : Option Value) :
    Activity Attempt :=
  node.frame.limited scope (node.behaviour ⟨s, scope, resume, false⟩)

/-- Whether the first attempts of a node fail, each in the world that the one before has left after
a delay. The errors are those that the node goes on after. -/
inductive Fails (node : GraphNode) (host : Host σ) (s : State) (scope : Scope)
    (resume : Option Value) (w : World σ) : Nat → List ErrorRecord → World σ → Prop where
  | start : Fails node host s scope resume w 0 [] w
  | next {f : Nat} {errors : List ErrorRecord} {x : World σ} {e : TaskError}
    (h : Fails node host s scope resume w f errors x)
    (hfailed : ((node.attempt s scope resume).run host x).1.result = .error e) :
    Fails node host s scope resume w (f + 1)
      (errors ++ ((node.attempt s scope resume).run host x).1.errors ++ [node.frame.recovered e s])
      ((Activity.sleep (scope.config.retry.delay f).wholeMillis).run host
        ((node.attempt s scope resume).run host x).2).2

/-- What is left of an execution after attempts that have failed. By induction on them. -/
theorem Fails.attempts (h : node.Fails host s scope resume w f errors x)
    (hretry : node.frame.policy.onError = .retry) (further : Nat) :
    (node.frame.attempts node.behaviour s scope resume 1 [] (f + further)).run host w =
      (node.frame.attempts node.behaviour s scope resume (f + 1) errors further).run host x := by
  induction h generalizing further with
  | start => rw [Nat.zero_add]
  | @next f errors x e _ hfailed ih =>
    rw [Nat.add_right_comm, Nat.add_assoc, ih (further + 1), NodeFrame.run_attempts hretry]
    exact NodeFrame.run_afterAttempt hretry hfailed _ _ _ _ _

/-- The execution of a node that is attempted often enough. -/
theorem Fails.runner (h : node.Fails host s scope resume w f errors x)
    (hretry : node.frame.policy.onError = .retry) (hdue : node.frame.Due s resume)
    (hf : f < node.frame.policy.maxAttempts scope.config.retry.maxRetries) :
    (node.runner s scope resume).run host w =
      (node.frame.attempts node.behaviour s scope resume (f + 1) errors
        (node.frame.policy.maxAttempts scope.config.retry.maxRetries - (f + 1))).run host x := by
  rw [runner_eq, hdue.execute, ← h.attempts hretry]
  congr 2
  omega

/-- The execution of a node whose next attempt comes to an outcome. -/
theorem Fails.runner_ok (h : node.Fails host s scope resume w f errors x)
    (hretry : node.frame.policy.onError = .retry) (hdue : node.frame.Due s resume)
    (hf : f < node.frame.policy.maxAttempts scope.config.retry.maxRetries) {outcome : NodeOutcome}
    {recovered : List ErrorRecord}
    (hlast : ((node.attempt s scope resume).run host x).1 = ⟨.ok outcome, recovered⟩) :
    (node.runner s scope resume).run host w =
      (⟨.ok outcome, errors ++ recovered, f + 1, false⟩,
        ((node.attempt s scope resume).run host x).2) :=
  (h.runner hretry hdue hf).trans (NodeFrame.run_attempts_ok hretry hlast _ _ _)

/-- An execution that has come to an outcome in its first attempt. -/
theorem runner_first (hretry : node.frame.policy.onError = .retry) {outcome : NodeOutcome}
    {recovered : List ErrorRecord}
    (h : ((node.runner s scope resume).run host w).1 = ⟨.ok outcome, recovered, 1, false⟩) :
    node.frame.Due s resume ∧
      ((node.attempt s scope resume).run host w).1 = ⟨.ok outcome, recovered⟩ := by
  rw [runner_eq] at h
  exact NodeFrame.execute_first hretry h

/-! ## The world after attempts that have failed -/

variable {P : Store → Prop} {store : Option Store}

theorem Untimed.timeout (h : node.Untimed) : node.frame.policy.timeout = none := by
  cases h with
  | leaf _ _ h => exact h
  | map _ _ h => exact h
  | subgraph _ _ h => exact h

/-- A node keeps to every discipline in an attempt, on the threads below that of its graph. -/
theorem attempt_holds (L : Discipline P fun r => ∀ e ∈ r.errors, True)
    (h : node.EveryGraph (StoredIn P)) (s : State) (scope : Scope) (resume : Option Value)
    (hcuts : L.Cuts ∨ node.Untimed ∧ scope.config.nodeTimeout = none) :
    L.Holds (Thread.Inside scope.thread) (fun a => ∀ e ∈ a.errors, True)
      (node.attempt s scope resume) := by
  refine NodeFrame.limited_holds L.toJudgement (hcuts.imp_right ?_)
    (behaviour_holds L h (v := ⟨s, scope, resume, false⟩) hcuts)
  rintro ⟨huntimed, hnode⟩
  unfold NodeFrame.limit?
  rw [huntimed.timeout]
  exact hnode

/-- What a node asks for in an attempt, if all threads are known. -/
theorem attempt_grounded (h : node.EveryGraph (StoredIn P)) (s : State) (scope : Scope)
    (resume : Option Value) :
    (node.attempt s scope resume).Grounded P (fun _ => False) True (Thread.Inside scope.thread)
      fun _ _ => True :=
  (attempt_holds (Grounded.discipline P fun _ => False) h s scope resume
    (.inl (Grounded.cuts_judgement P _ _)) fun _ hu => hu.ne_empty).weaken fun _ _ _ => trivial

/-- A storage that the store can work with is still one after attempts that have failed: the world
echoes itself. By induction on the attempts. -/
theorem Fails.readyFor (h : node.Fails host s scope resume w f errors x)
    (hnode : node.EveryGraph (StoredIn fun kept => store = some kept))
    (hidle : w.crew.strands = []) (hw : w.storage.ReadyFor store) : x.storage.ReadyFor store := by
  let E := Pairing.alone host (fun kept => store = some kept) (Storage.ReadyFor store)
    (Storage.contents store) Storage.keepsAnew
  have hechoes : ∃ past v, E.Echoes (fun _ => False) True past v x ∧
      ∀ u, E.Agreed v.storage x.storage u := by
    induction h with
    | start =>
      have htwinned : E.Twinned (.initial w.memory w.storage) w := ⟨rfl, hw, hw⟩
      exact ⟨_, _, htwinned.echoes hidle, fun _ => rfl⟩
    | @next f errors x e _ _ ih =>
      obtain ⟨past, v, hechoes, hagreed⟩ := ih
      have hattempt := (hechoes.run (attempt_grounded hnode s scope resume) (by rintro _ ⟨⟩)
        (.inl trivial) (fun u _ => hagreed u) fun _ _ _ _ _ => trivial).leads
      have hsleep : (Activity.sleep (scope.config.retry.delay f).wholeMillis).Grounded E.stores
          (fun _ => False) True (fun _ => False) fun _ _ => True :=
        ((Grounded.discipline E.stores fun _ => False).sleep (O := fun _ => False) _
          fun _ h => h.elim).weaken fun _ _ _ => trivial
      have hpause := (hattempt.echoes.run hsleep (by rintro _ ⟨⟩) (.inl trivial)
        (fun _ h => h.elim) fun _ _ _ _ _ => trivial).leads
      exact ⟨past, _, hpause.echoes, fun u =>
        hpause.storage.agreed (hattempt.storage.agreed (hagreed u))⟩
  obtain ⟨_, _, hechoes, _⟩ := hechoes
  exact hechoes.sound'

/-! ## Attempts that come to the same -/

/-- What a node knows after an attempt that has come to an outcome. -/
def Settles (node : GraphNode) (scope : Scope) (a : Attempt) (known : String → Prop) : Prop :=
  ∀ outcome, a.result = .ok outcome → ∀ u, node.Owns scope u → known u

theorem Settles.mono (node : GraphNode) (scope : Scope) (a : Attempt) (k l : String → Prop)
    (hkl : ∀ u, k u → l u) (h : node.Settles scope a k) : node.Settles scope a l :=
  fun outcome ha u hu => hkl u (h outcome ha u hu)

theorem attempt_settles {R : Store → Prop} {F : Prop} {known : String → Prop}
    (h : (node.behaviour ⟨s, scope, resume, false⟩).Grounded P R F known
      fun _ l => ∀ u, node.Owns scope u → l u) :
    (node.attempt s scope resume).Grounded P R F known (node.Settles scope) :=
  NodeFrame.limited_grounded (h.weaken fun _ _ hl _ _ => hl) fun _ _ => by rintro _ ⟨⟩

/-- Whether an attempt of a node can be made again wherever its threads have been left: checkpoints
are kept in memory, or no map starts tasks that could be left behind, or none of them is cut off. -/
def Repeats (node : GraphNode) (store : Option Store) (scope : Scope) : Prop :=
  (∀ kept, store = some kept → kept = .memory) ∨ ¬ node.FansOut ∨
    node.Untimed ∧ scope.config.nodeTimeout = none

/-- **An attempt comes to the same** in two idle worlds with hosts that answer alike: in every case
where the node enters no graph again, and otherwise where the threads of this graph have been left
alike. -/
theorem attempt_same {answers : Host Unit} (hnode : node.EveryGraph (StoredIn (store = some ·)))
    (hhost : host.Becomes x.memory answers) (hidle : w.crew.strands = [])
    (hidle' : x.crew.strands = []) (hw : w.storage.ReadyFor store) (hx : x.storage.ReadyFor store)
    (hsafe : node.Reenters resume ∨ node.Repeats store scope)
    (halike : ∀ u, node.AsksFor scope resume u →
      x.storage.contents store u = w.storage.contents store u) :
    Storage.Same (Storage.ReadyFor store) (Storage.contents store) (node.Settles scope) w.storage
      x.storage (World.outcome ((node.attempt s scope resume).run answers w.plain))
      (World.outcome ((node.attempt s scope resume).run host x)) := by
  obtain ⟨like, hlike, hfollows⟩ := hhost
  let E : Pairing Unit σ _ := ⟨answers, host, like, (store = some ·), Storage.ReadyFor store,
    Storage.contents store, hfollows, Storage.keepsAnew⟩
  have htwinned : E.Twinned w.plain x := ⟨hlike, hw, hx⟩
  have hmono := Settles.mono node scope
  by_cases hreenters : node.Reenters resume
  · have hattempt := attempt_settles (reentry_grounded hnode
      (v := ⟨s, scope, resume, false⟩) hreenters)
    exact Pairing.same_of_grounded (E := E) hidle hidle' htwinned hattempt halike hmono
      (by rintro _ ⟨⟩)
  · have hknown : ∀ u, False → E.Agreed w.plain.storage x.storage u := fun _ h => h.elim
    have hattempt {F : Prop} (hmaps : node.FansOut → F) : (node.attempt s scope resume).Grounded
        E.stores E.stores F (fun _ => False) (node.Settles scope) :=
      attempt_settles (behaviour_grounded hnode hmaps (v := ⟨s, scope, resume, false⟩) hreenters)
    have hquick (h : ∀ kept, store = some kept → kept = .memory ∨ ¬ node.FansOut) :=
      Pairing.same_of_grounded (E := E) hidle hidle' htwinned (hattempt id) hknown hmono h
    rcases hsafe.resolve_left hreenters with hmemory | hsingle | huntimed
    · exact hquick fun kept hkept => .inl (hmemory kept hkept)
    · exact hquick fun _ _ => .inr hsingle
    · have hpatient := (attempt_holds Activity.Patient.discipline
        (everyGraph_of_forall node fun _ _ _ _ => trivial) s scope resume (.inr huntimed)).1
      have hconfined := attempt_holds (Confined.discipline (store = some ·)) hnode s scope resume
        (.inl (Confined.cuts_discipline _))
      exact Pairing.same_of_patient (E := E) hpatient hconfined (fun _ hu => hu.ne_empty)
        (attempt_grounded hnode s scope resume) hidle hidle' htwinned (hattempt id) hknown hmono

end GraphNode

/-! ## Threads that have moved on -/

/-- Whether a graph refuses a value for one of its threads, because the thread waits for nothing. -/
def GraphFrame.Refuses (g : GraphFrame) (thread : String) (s : Storage) : Prop :=
  ∀ kept, g.store = some kept → ∃ latest, kept.load s thread = .ok latest ∧
    latest.bind (fun c => c.state.interrupt) = none

/-- What a subgraph fails with whose thread waits for nothing. -/
def FieldMappings.refusal (id name thread : String) : TaskError :=
  .failed id ("subgraph " ++ ticked name ++ " failed: " ++
    (RunError.noPendingInterrupt thread).message)

namespace NodeFrame

variable {frame : NodeFrame} {mappings : FieldMappings} {g : GraphFrame}
  {runner? : String → Option Runner} {s : State} {scope : Scope} {value : Value} {x : World σ}

/-- An attempt that makes a single call in an idle world takes no time. -/
theorem run_limited_ask (host : Host σ) (hidle : x.crew.strands = []) {c : Call}
    {rest : c.Answer → Activity Attempt} {a : Attempt}
    (hrest : rest (c.answer host x).1 = .done a) :
    (frame.limited scope (.ask c rest)).run host x = (a, (c.answer host x).2) := by
  unfold limited
  split
  · rw [run_ask host (.inr hidle), hrest]
    rfl
  · refine (run_bind _ _ _ _).trans ?_
    unfold within
    rw [run_ask host (.inr hidle), hrest]
    rfl

theorem run_refused (h : g.Refuses (scope.childThread frame.id) x.storage)
    (hidle : x.crew.strands = []) (host : Host σ) :
    (frame.limited scope
      (mappings.behaviour frame.id g runner? ⟨s, scope, some value, false⟩)).run host x =
        (.of (.error (FieldMappings.refusal frame.id g.name (scope.childThread frame.id))), x) := by
  unfold FieldMappings.behaviour GraphFrame.resumeThread GraphFrame.load
  dsimp only
  cases hkept : g.store with
  | none =>
    unfold limited
    split
    · rfl
    · rfl
  | some kept =>
    obtain ⟨latest, hload, hnone⟩ := h kept hkept
    refine run_limited_ask host hidle ?_
    show (Activity.bind (Activity.bind (.done (Except.mapError RunError.checkpoint
      (kept.load x.storage (scope.childThread frame.id)))) _) _) = _
    rw [hload]
    cases latest with
    | none => rfl
    | some c =>
      have hwaits : c.state.interrupt = none := hnone
      simp only [Except.mapError, Activity.bind, hwaits]
      rfl

/-- A thread that waits for nothing refuses the value in every further attempt. By induction on
those that are left. -/
theorem run_attempts_refused (hretry : frame.policy.onError = .retry)
    (h : g.Refuses (scope.childThread frame.id) x.storage) (hidle : x.crew.strands = [])
    (host : Host σ) (number : Nat) (errors : List ErrorRecord) (further : Nat) :
    ∃ more, ((frame.attempts (mappings.behaviour frame.id g runner?) s scope (some value) number
        errors further).run host x).1 =
          ⟨.error (.nodeExecution frame.id (number + further)
            (FieldMappings.refusal frame.id g.name (scope.childThread frame.id))), errors ++ more,
            number + further, false⟩ ∧
      ((frame.attempts (mappings.behaviour frame.id g runner?) s scope (some value) number
        errors further).run host x).2.storage = x.storage := by
  induction further generalizing number errors x with
  | zero =>
    rw [run_attempts hretry, run_refused h hidle]
    unfold afterAttempt giveUp
    rw [hretry]
    exact ⟨[], rfl, rfl⟩
  | succ further ih =>
    rw [run_attempts hretry, run_refused h hidle, run_afterAttempt hretry rfl,
      World.sleep_of_idle hidle]
    let span := (scope.config.retry.delay (number - 1)).wholeMillis
    let refusal := FieldMappings.refusal frame.id g.name (scope.childThread frame.id)
    obtain ⟨more, hrun, hstorage⟩ := ih (x := { x with clock := x.clock + span }) h hidle
      (number + 1) (errors ++ [] ++ [frame.recovered refusal s])
    refine ⟨frame.recovered refusal s :: more, hrun.trans ?_, hstorage⟩
    rw [List.append_nil, List.append_assoc, Nat.add_assoc, Nat.add_comm 1]
    rfl

end NodeFrame

/-- A subgraph whose thread waits for nothing after attempts that have failed. -/
theorem GraphNode.Fails.refused {frame : NodeFrame} {mappings : FieldMappings} {g : GraphFrame}
    {nodes : List (String × GraphNode)} {s : State} {scope : Scope} {value : Value} {host : Host σ}
    {w x : World σ} {f : Nat} {errors : List ErrorRecord}
    (h : (GraphNode.subgraph frame mappings g nodes).Fails host s scope (some value) w f errors x)
    (hretry : frame.policy.onError = .retry) (hmissing : frame.missing? s = none)
    (hf : f < frame.policy.maxAttempts scope.config.retry.maxRetries)
    (hrefuses : g.Refuses (scope.childThread frame.id) x.storage) (hidle : x.crew.strands = []) :
    let attempts := frame.policy.maxAttempts scope.config.retry.maxRetries
    let retried :=
      ((GraphNode.subgraph frame mappings g nodes).runner s scope (some value)).run host w
    ∃ more, retried.1 = ⟨.error (.nodeExecution frame.id attempts
        (FieldMappings.refusal frame.id g.name (scope.childThread frame.id))),
        errors ++ more, attempts, false⟩ ∧
      retried.2.storage = x.storage := by
  intro attempts retried
  have hrun := h.runner hretry ⟨Bool.false_ne_true, hmissing⟩ hf
  have hleft : f + 1 + (attempts - (f + 1)) = attempts := Nat.add_sub_cancel' hf
  obtain ⟨more, hresult, hkept⟩ := NodeFrame.run_attempts_refused hretry hrefuses hidle host (f + 1)
    errors (attempts - (f + 1))
  rw [hleft] at hresult
  exact ⟨more, (congrArg Prod.fst hrun).trans hresult,
    (congrArg (World.storage ·.2) hrun).trans hkept⟩

/-! ## The main result -/

/-- **Retry is transparent unless a thread has moved on.** Take a node of a compiled graph, at any
depth, that is retried, and let its first attempts fail, whatever executors and tools answer, while
there is a further attempt left. Let the host answer from then on as functions of what it is asked,
and let nothing be under way at the start and when the last attempt begins.

If the node succeeds at once with a host that answers so from the start, it succeeds in this
attempt, with the same outcome and the same values after the step; the errors that it has recovered
from come before. A thread in the store differs only where a failed attempt has changed it and
neither the last one nor the one that succeeds at once touches it, and it is not the thread of the
node. This holds of every kind of node that is entered afresh, also of maps and subgraphs, for these
forget the threads that they go on with; tasks of a map must not be left behind by a timeout where
checkpoints are kept in files. It holds of a subgraph that is entered again with a value if the
failed attempts have left its thread and those below as they were.

If they have moved its thread on, so that it waits for nothing, all further attempts are refused for
want of a pending interrupt, and the node fails. -/
theorem retry_is_transparent_unless_moved_on {c : Compiler} {store : Option Store} {depth : Nat}
    {stack : SourceStack} {d : Definition} {g : Graph} (hg : c.assemble store depth stack d = .ok g)
    {graph : GraphFrame} {nodes : List (String × GraphNode)} {node : GraphNode}
    (hexecutes : g.Executes graph nodes node) (hretry : node.frame.policy.onError = .retry)
    {s : State} {scope : Scope} {resume : Option Value} {σ : Type} {host : Host σ} {w x : World σ}
    (hw : w.crew.strands = []) (hx : x.crew.strands = []) (hstorage : w.storage.ReadyFor store)
    {f : Nat} {errors : List ErrorRecord}
    (hfails : node.Fails host s scope resume w f errors x)
    (hf : f < node.frame.policy.maxAttempts scope.config.retry.maxRetries) :
    (∀ {answers : Host Unit} {outcome : NodeOutcome} {recovered : List ErrorRecord},
      host.Becomes x.memory answers → node.Reenters resume ∨ node.Repeats store scope →
      (∀ u, node.AsksFor scope resume u → x.storage.contents store u = w.storage.contents store u) →
      let once := (node.runner s scope resume).run answers w.plain
      let retried := (node.runner s scope resume).run host w
      once.1 = ⟨.ok outcome, recovered, 1, false⟩ →
      retried.1 = ⟨.ok outcome, errors ++ recovered, f + 1, false⟩ ∧
      (∀ shape, ((GraphFrame.afterRun s retried.1).apply shape outcome.update).values =
        ((GraphFrame.afterRun s once.1).apply shape outcome.update).values) ∧
      ∀ u, retried.2.storage.contents store u ≠ once.2.storage.contents store u →
        x.storage.contents store u ≠ w.storage.contents store u ∧
          once.2.storage.contents store u = w.storage.contents store u ∧
          retried.2.storage.contents store u = x.storage.contents store u ∧
          ¬ node.Owns scope u) ∧
    ∀ frame mappings inner others value,
      node = .subgraph frame mappings inner others → resume = some value →
      frame.missing? s = none → inner.Refuses (scope.childThread frame.id) x.storage →
      let attempts := frame.policy.maxAttempts scope.config.retry.maxRetries
      let retried := (node.runner s scope resume).run host w
      ∃ more, retried.1 = ⟨.error (.nodeExecution frame.id attempts
          (FieldMappings.refusal frame.id inner.name (scope.childThread frame.id))),
          errors ++ more, attempts, false⟩ ∧
        retried.2.storage = x.storage := by
  obtain ⟨_, hwired⟩ := (Compiler.wired_of_assemble hg).executes hexecutes
  have hnode : node.EveryGraph (GraphNode.StoredIn (store = some ·)) :=
    hwired.mono fun _ _ hwired kept hkept => hwired.store.symm.trans hkept
  refine ⟨?_, ?_⟩
  · intro answers outcome recovered hhost hsafe halike once retried honce
    have hready := hfails.readyFor hnode hw hstorage
    have hsame := GraphNode.attempt_same (s := s) hnode hhost hw hx hstorage hready hsafe halike
    obtain ⟨hdue, hfirst⟩ := GraphNode.runner_first hretry honce
    have hlast : ((node.attempt s scope resume).run host x).1 = ⟨.ok outcome, recovered⟩ :=
      hsame.result.trans hfirst
    have hattempts : 0 < node.frame.policy.maxAttempts scope.config.retry.maxRetries :=
      Nat.zero_lt_of_lt hf
    have honce : once = (⟨.ok outcome, recovered, 1, false⟩,
        ((node.attempt s scope resume).run answers w.plain).2) :=
      GraphNode.Fails.start.runner_ok hretry hdue hattempts hfirst
    have hretried : retried = (⟨.ok outcome, errors ++ recovered, f + 1, false⟩,
        ((node.attempt s scope resume).run host x).2) :=
      hfails.runner_ok hretry hdue hf hlast
    rw [honce, hretried]
    refine ⟨rfl, fun _ => rfl, fun u hu => ?_⟩
    have hx' : x.storage.contents store u ≠ w.storage.contents store u :=
      fun hxw => hu (hsame.storage.agreed hxw)
    obtain ⟨hfirstKept, hlastKept⟩ := (hsame.storage u).resolve_left hu
    exact ⟨hx', hfirstKept, hlastKept, fun howns =>
      hu (hsame.holds outcome (congrArg Attempt.result hfirst) u howns)⟩
  · rintro frame mappings inner others value rfl rfl hmissing hrefuses
    exact hfails.refused hretry hmissing hf hrefuses hx

/-! ## A graph that asks and is retried -/

/-- The definition that asks for a name, with a checkpoint after so many steps. -/
def askChildEvery (interval : Nat) : Value :=
  match askChild with
  | .object fields =>
    .object (("defaults", .object [("checkpoint_interval", .ofNat interval)]) :: fields)
  | other => other

/-- A definition that runs it inside a node that is retried once. -/
def retriedParent (interval : Nat) : Definition :=
  { askParent with
    nodes := [⟨"sub",
      .subgraph ⟨none, some (askChildEvery interval), [], [("result", "result")], []⟩,
      { NodeOptions.unset with onError := .retry, maxRetries := some 1 }⟩] }

/-- The frame of the inner graph. -/
def retriedInner (interval : Nat) : GraphFrame :=
  { askChildFrame with config := { RunConfig.standard with checkpointInterval := interval } }

/-- The node that is retried. -/
def retriedSub (interval : Nat) : GraphNode :=
  .subgraph ⟨"sub", none, ⟨.retry, some 1, none, ["result"], []⟩⟩ ⟨[], [("result", "result")], []⟩
    (retriedInner interval) askChildNodes

/-- The graph that the definition is compiled to. -/
def retriedGraph (interval : Nat) : Graph :=
  { askGraph with nodes := [("sub", retriedSub interval)] }

/-- The node is entered again with an answer. -/
def answeredSub (interval : Nat) : Activity NodeRun :=
  (retriedSub interval).runner { State.blank with step := 1 } ⟨"t", .standard⟩ (some (.text "Ada"))

/-- A host whose executor is down when it is asked for the first time. -/
def recoveringHost : Host Bool where
  task up _ _ := (⟨0, if up then .ok (.text "fine") else .error (.failed "work" "down")⟩, true)
  tool up _ _ := (⟨0, if up then .ok (.text "fine") else .error (.failed "work" "down")⟩, true)

/-- A host whose executor is up. -/
def upHost : Host Unit where
  task _ _ _ := (⟨0, .ok (.text "fine")⟩, ())
  tool _ _ _ := (⟨0, .ok (.text "fine")⟩, ())

theorem recoveringHost_becomes : recoveringHost.Becomes true upHost := by
  refine ⟨fun _ up => up = true, rfl, ?_, ?_⟩
  · rintro _ _ e r rfl
    exact ⟨rfl, rfl⟩
  · rintro _ _ name arguments rfl
    exact ⟨rfl, rfl⟩

/-- The storage after the graph has asked. -/
def askedStorage : Storage :=
  ⟨(MemoryStore.empty.save (askChildFrame.checkpoint "t/sub"
      { State.ofFields [("ask_message", .text "Name?")] with
        step := 1, interrupt := some ⟨"ask", "user_input", .text "Name?", false⟩ }
      (some "ask"))).save
    (askGraph.frame.checkpoint "t"
      { State.blank with
        step := 1, interrupt := some ⟨"sub", "user_input", .text "Name?", true⟩ }
      (some "sub")), .empty⟩

/-- The storage after the answer has been saved. -/
def savedStorage : Storage :=
  ⟨askedStorage.memory.save (askChildFrame.checkpoint "t/sub"
    { State.ofFields [("ask_message", .text "Name?"), ("user_input", .text "Ada")] with step := 2 }
    (some "work")), .empty⟩

/-- The thread does not wait for an answer any more. -/
theorem retriedInner_refuses : (retriedInner 1).Refuses "t/sub" savedStorage := by
  rintro _ ⟨⟩
  exact ⟨_, rfl, rfl⟩

/-- What the node fails with while the executor is down. -/
def downFailure : TaskError :=
  .failed "sub" ("subgraph " ++ ticked "child" ++ " failed: " ++
    (RunError.nodeExecution "work" 1 (.failed "work" "down")).message)

/-- One attempt of the node with the answer, while the executor is down. -/
def downAttempt (interval : Nat) : Attempt × World Bool :=
  ((retriedSub interval).attempt { State.blank with step := 1 } ⟨"t", .standard⟩
    (some (.text "Ada"))).run recoveringHost (.initial false askedStorage)

theorem downAttempt_saves :
    downAttempt 1 = (.of (.error downFailure), .initial true savedStorage) := by
  with_unfolding_all rfl

theorem downAttempt_saves_nothing :
    downAttempt 3 = (.of (.error downFailure), .initial true askedStorage) := by
  with_unfolding_all rfl

theorem fails_of_downAttempt {interval : Nat} {s : Storage}
    (h : downAttempt interval = (.of (.error downFailure), .initial true s)) :
    ∃ errors, (retriedSub interval).Fails recoveringHost { State.blank with step := 1 }
      ⟨"t", .standard⟩ (some (.text "Ada")) (.initial false askedStorage) 1 errors
      { World.initial true s with clock := 100 } := by
  have hnext := GraphNode.Fails.next .start (congrArg (·.1.result) h)
  have hdelay : (RunConfig.standard.retry.delay 0).wholeMillis = 100 := by decide
  rw [show ((retriedSub interval).attempt _ _ _).run recoveringHost _ = _ from h,
    World.sleep_of_idle rfl, hdelay] at hnext
  exact ⟨_, hnext⟩

/-- Before the executor fails, the inner graph has taken one step. Where checkpoints are due after
three steps it has not been saved, and the failure goes unnoticed; where they are due after every
step, the answer is refused. -/
theorem answer_arrives_unless_saved :
    ((answeredSub 3).run recoveringHost (.initial false askedStorage)).1.result =
      .ok (.proceed (.single "result" (.text "fine"))) ∧
    ((answeredSub 1).run recoveringHost (.initial false askedStorage)).1.result =
      .error (.nodeExecution "sub" 2 (FieldMappings.refusal "sub" "child" "t/sub")) := by
  have hassembled : oneExecutor.assemble (some .memory) 2 .empty (retriedParent 3) =
      .ok (retriedGraph 3) := by
    with_unfolding_all rfl
  have hassembled' : oneExecutor.assemble (some .memory) 2 .empty (retriedParent 1) =
      .ok (retriedGraph 1) := by
    with_unfolding_all rfl
  have hexecutes (interval : Nat) : (retriedGraph interval).Executes (retriedGraph interval).frame
      (retriedGraph interval).nodes (retriedSub interval) := by
    have hmember : ("sub", retriedSub interval) ∈ (retriedGraph interval).nodes :=
      List.mem_singleton.2 rfl
    exact .node hmember
  have hready : askedStorage.ReadyFor (some .memory) :=
    Storage.readyFor_memory ((MemoryStore.sound_empty.save _).save _)
  obtain ⟨_, hfails⟩ := fails_of_downAttempt downAttempt_saves_nothing
  obtain ⟨_, hfails'⟩ := fails_of_downAttempt downAttempt_saves
  obtain ⟨hunnoticed, _⟩ := retry_is_transparent_unless_moved_on hassembled (hexecutes 3) rfl rfl
    rfl hready hfails (by decide)
  obtain ⟨_, hnoticed⟩ := retry_is_transparent_unless_moved_on hassembled' (hexecutes 1) rfl rfl
    rfl hready hfails' (by decide)
  have honce : ((answeredSub 3).run upHost (.initial () askedStorage)).1 =
      ⟨.ok (.proceed (.single "result" (.text "fine"))), [], 1, false⟩ := by
    with_unfolding_all rfl
  obtain ⟨hsame, _⟩ := hunnoticed recoveringHost_becomes (.inl trivial) (fun _ _ => rfl) honce
  obtain ⟨_, hrefused, _⟩ := hnoticed _ _ _ _ _ rfl rfl rfl retriedInner_refuses
  unfold answeredSub
  exact ⟨congrArg NodeRun.result hsame, congrArg NodeRun.result hrefused⟩

/-- A retry that is not transparent. The graph has asked; the first attempt with the answer fails
because the executor is down. Had the executor been up, this attempt would have succeeded, as it is
from then on, but the second attempt fails too: its thread does not wait for anything any more. -/
theorem answer_refused_after_saving :
    oneExecutor.assemble (some .memory) 2 .empty (retriedParent 1) = .ok (retriedGraph 1) ∧
    (((retriedGraph 1).run .null "t").run recoveringHost (.initial false .empty)).2 =
      .initial false askedStorage ∧
    (downAttempt 1).1.result = .error downFailure ∧ recoveringHost.Becomes true upHost ∧
    ((answeredSub 1).run upHost (.initial () askedStorage)).1 =
      ⟨.ok (.proceed (.single "result" (.text "fine"))), [], 1, false⟩ ∧
    ((answeredSub 1).run recoveringHost (.initial false askedStorage)).1.result =
      .error (.nodeExecution "sub" 2 (FieldMappings.refusal "sub" "child" "t/sub")) := by
  refine ⟨by with_unfolding_all rfl, by with_unfolding_all rfl,
    congrArg (·.1.result) downAttempt_saves, recoveringHost_becomes, by with_unfolding_all rfl, ?_⟩
  obtain ⟨_, hfails⟩ := fails_of_downAttempt downAttempt_saves
  obtain ⟨_, hrefused, _⟩ := hfails.refused rfl rfl (by decide) retriedInner_refuses rfl
  unfold answeredSub retriedSub
  exact congrArg NodeRun.result hrefused

end WorkflowGraph
