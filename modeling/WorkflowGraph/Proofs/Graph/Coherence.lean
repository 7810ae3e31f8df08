import WorkflowGraph.Proofs.Graph.Closed
import WorkflowGraph.Proofs.Graph.Keeping

/-!
# Parent and child suspensions

The threads of a graph and of the subgraphs inside it are saved one after the other, so a call can
fail after the thread below has moved on while its own thread still waits for it. Such a call is
lost (`RunResult.Lost`): the pending suspension can be reported again, but not resumed. It is the
only way in which a chain of suspended threads comes apart (`suspensions_cohere_unless_lost`).
-/

set_option autoImplicit false

namespace WorkflowGraph

open Activity

/-! ## Calls that are lost -/

/-- Whether a call has failed and has left its thread as it was, but has moved a thread below that
this one waits for. -/
structure RunResult.Lost (before after : Latest) (thread : String) (r : RunResult) : Prop where
  failed : ∃ e s, r = .failed e s
  still : after thread = before thread
  moved : ∃ other, before.OnChain thread other ∧ after other ≠ before other

/-- What a call has come to, as it is seen in the latest checkpoints before and after it. A call
that has suspended may only have said again what the thread waited for before. -/
def RunResult.Shown (g : Graph) (thread : String) (before after : Latest) : RunResult → Prop
  | .complete _ => after.pending? thread = none
  | .suspended pending _ => GraphNode.Awaits after g.frame g.nodes thread pending ∨
      before.pending? thread = some pending ∧
        ∀ u, before.OnChain thread u → after u = before u
  | .failed _ _ => ∀ u, before.OnChain thread u →
      after u = before u ∨ after.pending? u = none

namespace GraphNode

/-- The threads of a rooted chain are those of subgraphs. By induction on the chain. -/
theorem Rooted.watched {store : Store} {watched : String → Prop} {m : Latest} {g : GraphFrame}
    {nodes : List (String × GraphNode)} {thread : String} (h : Rooted m g nodes thread)
    (hg : Graph.Placed store watched thread ⟨g, nodes⟩) :
    ∀ other, m.OnChain thread other → watched other := by
  induction h with
  | idle g nodes hnone =>
    intro other hother
    rw [hother.eq_of_pending?_eq_none hnone]
    exact hg.here
  | interrupt hpending =>
    intro other hother
    cases hother with
    | here => exact hg.here
    | further hpending' hnested =>
      rw [hpending] at hpending'
      cases hpending'
      cases hnested
  | subgraph hpending _ hnode _ _ ih =>
    intro other hother
    cases hother with
    | here => exact hg.here
    | further hpending' _ hother' =>
      rw [hpending] at hpending'
      cases hpending'
      exact ih (placed_of_lookup? hg hnode) other hother'

end GraphNode

namespace Latest

theorem OnChain.next {m : Latest} {thread other : String} (h : m.OnChain thread other)
    {pending : PendingInterrupt} (hpending : m.pending? other = some pending)
    (hnested : pending.nested = true) : m.OnChain thread (other ++ "/" ++ pending.node) := by
  induction h with
  | here thread => exact .further hpending hnested (.here _)
  | further hpending' hnested' _ ih => exact .further hpending' hnested' (ih hpending)

/-- A chain whose threads are as they were is the same chain. By induction on the chain. -/
theorem OnChain.of_same {before after : Latest} {thread other : String}
    (h : after.OnChain thread other)
    (hsame : ∀ u, before.OnChain thread u → after u = before u) :
    before.OnChain thread other := by
  induction h with
  | here thread => exact .here thread
  | @further thread other pending hpending hnested _ ih =>
    have hbefore : before.pending? thread = some pending := by
      rw [← pending?_congr (hsame thread (.here thread))]
      exact hpending
    exact .further hbefore hnested (ih fun u hu => hsame u (.further hbefore hnested hu))

theorem Coherent.of_same {before after : Latest} {thread : String} (h : before.Coherent thread)
    (hsame : ∀ u, before.OnChain thread u → after u = before u) : after.Coherent thread := by
  intro other hother pending hpending hnested
  have hbefore := hother.of_same hsame
  rw [pending?_congr (hsame other hbefore)] at hpending
  rw [pending?_congr (hsame _ (hbefore.next hpending hnested))]
  exact h other hbefore pending hpending hnested

/-- Where every thread of a chain is as it was or waits for nothing, and the chain is coherent
afterwards from a thread that is as it was, the whole chain is as it was. By induction on the
chain: each thread waits for the next one, which then cannot wait for nothing. -/
theorem OnChain.eq_of_coherent {before after : Latest} {thread other : String}
    (h : before.OnChain thread other)
    (hcalm : ∀ u, before.OnChain thread u → after u = before u ∨ after.pending? u = none)
    (hstill : after thread = before thread) (hcoherent : after.Coherent thread) :
    after other = before other := by
  induction h with
  | here thread => exact hstill
  | @further thread other pending hpending hnested h ih =>
    have hafter : after.pending? thread = some pending := by
      rw [pending?_congr hstill]
      exact hpending
    obtain ⟨inner, hinner, _, _⟩ := hcoherent thread (.here thread) pending hafter hnested
    have hnext := hcalm _ (.further hpending hnested (.here _))
    rw [hinner] at hnext
    rcases hnext with hsame | hnone
    · apply ih _ hsame (hcoherent.below hafter hnested)
      exact fun u hu => hcalm u (.further hpending hnested hu)
    · cases hnone

theorem coherent_iff_not_lost {before after : Latest} {thread : String} {r : RunResult}
    (hfailed : ∃ e s, r = .failed e s) (hbefore : before.Coherent thread)
    (hcalm : ∀ u, before.OnChain thread u → after u = before u ∨ after.pending? u = none) :
    after.Coherent thread ↔ ¬ r.Lost before after thread := by
  constructor
  · rintro hcoherent ⟨_, hstill, other, hother, hmoved⟩
    exact hmoved (hother.eq_of_coherent hcalm hstill hcoherent)
  · intro hkept
    rcases hcalm thread (.here thread) with hstill | hnone
    · have hsame : ∀ other, before.OnChain thread other → after other = before other := by
        intro other hother
        by_contra hmoved
        exact hkept ⟨hfailed, hstill, other, hother, hmoved⟩
      exact hbefore.of_same hsame
    · exact coherent_of_pending?_eq_none hnone

end Latest

/-! ## Calls in a world -/

namespace Graph

variable {σ : Type} {store : Store} {SoundStorage : Storage → Prop} {watched : String → Prop}
  {g : Graph} {thread : String} {w : World σ} {call : Activity RunResult}

/-- A call on a thread leaves its threads as it should, or says again what the thread waits for. -/
theorem serves_keeping {m : Latest} (hg : g.Placed store watched thread) (hm : m.Sound)
    (hcall : g.Serves thread call) :
    call.Meets (.keeping store watched) m.Quiet
      (fun r k => r.Leaves m g.frame g.nodes thread k ∨ r.Reports m thread k) m := by
  rcases hcall with ⟨input, rfl⟩ | ⟨value, rfl⟩
  · exact run_keeping hg hm input
  · exact (resume_keeping hg hm value).mono (fun _ hk => hk) fun _ _ hr => .inl hr

/-- Whether a world shows sound checkpoints on the watched threads, and the chain of a thread is
rooted in the nodes of the graph. -/
structure Seen (g : Graph) (store : Store) (SoundStorage : Storage → Prop)
    (watched : String → Prop) (thread : String) (w : World σ) : Prop where
  shows : ∃ m : Latest, m.Sound ∧ w.Shows (.keeping store watched)
    (store.Keeps SoundStorage watched) m
  rooted : GraphNode.Rooted (store.latest? w.storage) g.frame g.nodes thread

namespace Seen

variable (hg : g.Placed store watched thread) (hworks : store.Works SoundStorage)
  (host : Host σ)

include hg hworks

/-- What a call comes to is seen in the latest checkpoints, and the checkpoints stay sound. -/
theorem shown (h : g.Seen store SoundStorage watched thread w) (hcall : g.Serves thread call) :
    (∃ k : Latest, k.Sound ∧ (call.run host w).2.Shows (.keeping store watched)
      (store.Keeps SoundStorage watched) k) ∧
    (call.run host w).1.Shown g thread (store.latest? w.storage)
      (store.latest? (call.run host w).2.storage) := by
  have hchain := h.rooted.watched hg
  obtain ⟨m, hm, hshows⟩ := h.shows
  have hbefore : ∀ u, watched u → store.latest? w.storage u = m u := hshows.view.latest
  have hmeets := serves_keeping hg hm hcall
  obtain ⟨k, hafter, hleaves⟩ := hmeets.run host (Regime.seenThrough_keeping hworks) hshows
  have hsame : ∀ u, watched u → store.latest? (call.run host w).2.storage u = k u :=
    hafter.view.latest
  rcases hleaves with hleaves | ⟨pending, s, hr, hpending, rfl⟩
  · cases hr : (call.run host w).1 with
    | complete s =>
      rw [hr] at hleaves
      refine ⟨⟨k, hleaves.1.sound, hafter⟩, ?_⟩
      exact (Latest.pending?_congr (hsame thread hg.here)).trans hleaves.2
    | suspended pending s =>
      rw [hr] at hleaves
      refine ⟨⟨k, hleaves.1, hafter⟩, .inl ?_⟩
      exact hleaves.2.congr fun u hu => hsame u (hleaves.2.rooted.watched hg u hu)
    | failed e s =>
      rw [hr] at hleaves
      refine ⟨⟨k, hleaves.sound, hafter⟩, ?_⟩
      intro u hu
      rw [Latest.pending?_congr (hsame u (hchain u hu)), hsame u (hchain u hu),
        hbefore u (hchain u hu)]
      exact hleaves.calmer u
  · refine ⟨⟨k, hm, hafter⟩, ?_⟩
    rw [hr]
    refine .inr ⟨?_, fun u hu => ?_⟩
    · exact (Latest.pending?_congr (hbefore thread hg.here)).trans hpending
    · rw [hsame u (hchain u hu), hbefore u (hchain u hu)]

theorem next (h : g.Seen store SoundStorage watched thread w) (hcall : g.Serves thread call) :
    g.Seen store SoundStorage watched thread (call.run host w).2 := by
  obtain ⟨hshows, hshown⟩ := h.shown hg hworks host hcall
  refine ⟨hshows, ?_⟩
  cases hr : (call.run host w).1 with
  | complete s =>
    rw [hr] at hshown
    exact .idle _ _ hshown
  | suspended pending s =>
    rw [hr] at hshown
    rcases hshown with hawaits | ⟨_, hsame⟩
    · exact hawaits.rooted
    · exact h.rooted.calmer fun u hu => .inl (hsame u hu)
  | failed e s =>
    rw [hr] at hshown
    exact h.rooted.calmer hshown

/-- **A call on a coherent thread leaves it coherent unless it is lost.** -/
theorem coherent_iff (h : g.Seen store SoundStorage watched thread w)
    (hcoherent : Latest.Coherent (store.latest? w.storage) thread)
    (hcall : g.Serves thread call) :
    Latest.Coherent (store.latest? (call.run host w).2.storage) thread ↔
      ¬ (call.run host w).1.Lost (store.latest? w.storage)
        (store.latest? (call.run host w).2.storage) thread := by
  have hshown := (h.shown hg hworks host hcall).2
  cases hr : (call.run host w).1 with
  | failed e s =>
    rw [hr] at hshown
    exact Latest.coherent_iff_not_lost ⟨e, s, rfl⟩ hcoherent hshown
  | complete s =>
    rw [hr] at hshown
    refine iff_of_true (Latest.coherent_of_pending?_eq_none hshown) ?_
    rintro ⟨⟨_, _, hfailed⟩, _, _⟩
    cases hfailed
  | suspended pending s =>
    rw [hr] at hshown
    refine iff_of_true ?_ ?_
    · rcases hshown with hawaits | ⟨_, hsame⟩
      · exact hawaits.coherent
      · exact hcoherent.of_same hsame
    · rintro ⟨⟨_, _, hfailed⟩, _, _⟩
      cases hfailed

end Seen

end Graph

/-! ## Walks never want for a pending interrupt -/

/-- Whether an error is not one of a thread that waits for nothing. -/
def RunError.IsAsked : RunError → Prop
  | .noPendingInterrupt _ => False
  | _ => True

theorem Activity.Regime.ofThread_true (thread : String) :
    Regime.ofThread thread (fun _ => True) = .ofCalls fun _ => True := by
  unfold Regime.ofThread Regime.ofCalls
  simp

namespace GraphFrame

variable {g : GraphFrame} {nodes : List (String × GraphNode)} {thread : String}
  {inv : Unit → Prop}

/-- Whether a walk goes on, or ends with another error than that of a thread that waits for
nothing. -/
def EndsAsked : Onward → Prop
  | .stop (.failed e) => e.IsAsked
  | _ => True

theorem isAsked_of_next {table : TransitionTable} {node : String} {fields : Fields} {e : RunError}
    (h : table.next node fields = .error e) : e.IsAsked := by
  unfold TransitionTable.next at h
  split at h
  · cases h
    simp [RunError.IsAsked]
  · next t _ =>
    cases hchoose : t.choose node fields with
    | ok x =>
      rw [hchoose] at h
      cases h
    | error e' =>
      rw [hchoose] at h
      cases h
      rcases Transition.choose_eq_error hchoose with
        ⟨branches, rfl, rfl, _⟩ | ⟨field, routes, value, rfl, rfl⟩
      · trivial
      · trivial

theorem saved_asked {s : State} {next : Option String} {onward : Onward}
    (honward : EndsAsked onward) :
    (g.saveThen thread s next onward).Meets
      (.ofThread thread fun _ => True) inv (fun r _ => EndsAsked r.1) () := by
  apply meets_bind (save_ofThread trivial)
  rintro (e | _) _ hr
  · obtain ⟨cause, rfl⟩ := hr e rfl
    trivial
  · exact honward

/-- A step of a walk goes on, or ends in an asked way. -/
theorem enter_asked {scope : Scope} (budget : Option Nat) (s : State) (node : String)
    (resume : Option Value) :
    (g.enter (GraphNode.runnerIn? nodes) scope budget s node resume).Meets
      (.ofThread scope.thread fun _ => True) (fun _ => True)
      (fun r _ => EndsAsked r.onward) () := by
  apply enter_meets fun onward _ _ => EndsAsked onward
  · exact fun _ => trivial
  · exact fun _ _ _ => trivial
  · intro runner t hrunner _
    apply carryOut_meets fun onward _ _ => EndsAsked onward
    · exact Graph.Closed.runner_ofThread (g := ⟨g, nodes⟩) hrunner t scope resume
    · exact fun _ _ _ => trivial
    · intro r e _ hr he
      obtain ⟨id, attempts, cause, rfl⟩ := hr e he
      trivial
    · intro r outcome _ _ _
      unfold settle
      cases outcome with
      | suspend suspension => exact saved_asked trivial
      | proceed update =>
        dsimp only
        split
        · next e he => exact isAsked_of_next he
        · split
          · exact saved_asked trivial
          · trivial
        · exact saved_asked trivial

/-- A walk never fails for want of a pending interrupt. -/
theorem walk_asked (s : State) (start : String) (resume : Option Value) :
    (g.walk (GraphNode.runnerIn? nodes) s start thread resume).Obeys (fun _ => True)
      (fun r => ∀ e t, r = .failed e t → e.IsAsked) := by
  apply obeys_iff_meets.2
  rw [← Regime.ofThread_true thread]
  apply walk_meets
  have hwalk : (g.walkFrom (GraphNode.runnerIn? nodes) ⟨thread, g.config⟩
      (g.config.workflowTimeout.map Duration.wholeMillis) s start resume g.config.maxSteps).Meets
      (.ofThread thread fun _ => True) (fun _ => True)
      (fun r _ => ∀ e, r.1 = .failed e → e.IsAsked) () := by
    apply walkFrom_meets (fun _ _ _ _ => True)
      (fun ending _ _ => ∀ e, ending = .failed e → e.IsAsked)
    · rintro _ _ _ _ _ _ ⟨⟩
      trivial
    · intro budget s node resume _ _
      have hstep := @enter_asked g nodes ⟨thread, g.config⟩ budget s node resume
      refine hstep.mono (fun _ hk => hk) ?_
      rintro ⟨_, onward, t, _⟩ _ hr
      cases onward with
      | go next => trivial
      | stop ending =>
        rintro e rfl
        exact hr
    · trivial
  refine hwalk.mono (fun _ hk => hk) ?_
  rintro ⟨ending, t⟩ _ hr
  cases ending with
  | complete => rintro _ _ ⟨⟩
  | suspended pending => rintro _ _ ⟨⟩
  | failed e =>
    rintro _ _ ⟨⟩
    exact hr e rfl

end GraphFrame

/-! ## Values that are handed on -/

namespace Graph

/-- Whether the value that a thread of a graph is resumed with goes on to a graph inside it, on a
thread below. -/
inductive HandsOn (m : Latest) : Graph → String → Graph → String → Prop where
  | first {g : Graph} {thread : String} {pending : PendingInterrupt} {frame : NodeFrame}
    {mappings : FieldMappings} {graph : GraphFrame} {inside : List (String × GraphNode)}
    (hpending : m.pending? thread = some pending) (hnested : pending.nested = true)
    (hnode : GraphNode.lookup? g.nodes pending.node =
      some (.subgraph frame mappings graph inside)) :
    HandsOn m g thread ⟨graph, inside⟩ (thread ++ "/" ++ pending.node)
  | further {g middle inner : Graph} {thread between below : String}
    (h : HandsOn m g thread middle between) (h' : HandsOn m middle between inner below) :
    HandsOn m g thread inner below

variable {store : Store} {watched : String → Prop} {thread : String} {m : Latest} {g : Graph}

/-- A graph that a value is handed on to waits as well, and is placed as well. -/
theorem HandsOn.awaits {inner : Graph} {below : String} (h : HandsOn m g thread inner below)
    (hg : g.Placed store watched thread)
    (hwaits : ∃ pending, GraphNode.Awaits m g.frame g.nodes thread pending) :
    inner.Placed store watched below ∧
      ∃ pending, GraphNode.Awaits m inner.frame inner.nodes below pending := by
  induction h with
  | @first g thread pending frame mappings graph inside hpending hnested hnode =>
    refine ⟨GraphNode.placed_of_lookup? hg hnode, ?_⟩
    obtain ⟨waiting, hwaits⟩ := hwaits
    have hsame := hwaits.pending?
    rw [hpending] at hsame
    cases hsame
    cases hwaits with
    | interrupt => cases hnested
    | subgraph _ _ hlookup hinner =>
      rw [hnode] at hlookup
      cases hlookup
      exact ⟨_, hinner⟩
  | further _ _ ih ih' =>
    obtain ⟨hmiddle, hawaits⟩ := ih hg hwaits
    exact ih' hmiddle hawaits

/-- A thread that waits for something can be resumed. -/
theorem resume_asked (hg : g.Placed store watched thread) (hm : m.Sound)
    {pending : PendingInterrupt} (hpending : m.pending? thread = some pending) (value : Value) :
    (g.resume thread value).Meets (.keeping store watched) m.Quiet
      (fun r _ => ∀ e t, r = .failed e t → e.IsAsked) m := by
  unfold Graph.resume GraphFrame.resumeThread
  apply meets_bind (GraphFrame.load_keeping hg.wired.here.store hg.here)
  rintro _ _ ⟨rfl, rfl⟩
  rename_i m
  obtain ⟨c, hc, hwaits⟩ := Latest.pending?_eq_some_iff.1 hpending
  simp only [hc, hwaits]
  have hunderway : GraphFrame.Underway m thread { c.state with interrupt := none } m := by
    refine ⟨hm.quiet, rfl, fun old hold => ?_⟩
    rw [hc] at hold
    cases hold
    exact Nat.le_of_eq (hm thread c hc)
  have hwalk : (g.frame.walk (GraphNode.runnerIn? g.nodes) { c.state with interrupt := none }
      pending.node thread (some value)).Meets (.keeping store watched) m.Quiet
      (fun r k => r.Leaves m g.frame g.nodes thread k) m :=
    GraphFrame.walk_keeping hg.wired.here hg.here hg.runners_keep hg.storedIn hunderway
  have hasked := hwalk.and_obeys (GraphFrame.walk_asked _ _ _)
  exact hasked.mono (fun _ hk => hk) fun r k hr => hr.2

/-- The worlds that are reached by calls on a thread. -/
inductive Visits {σ : Type} (g : Graph) (thread : String) (host : Host σ) (start : World σ) :
    World σ → Prop where
  | start : Visits g thread host start start
  | call {w : World σ} {call : Activity RunResult} (hw : Visits g thread host start w)
    (hcall : g.Serves thread call) : Visits g thread host start (call.run host w).2

/-- The worlds that are reached by calls on a thread of which none is lost. -/
inductive Reaches {σ : Type} (g : Graph) (store : Store) (thread : String) (host : Host σ)
    (start : World σ) : World σ → Prop where
  | start : Reaches g store thread host start start
  | call {w : World σ} {call : Activity RunResult} (hw : Reaches g store thread host start w)
    (hcall : g.Serves thread call)
    (hkept : ¬ (call.run host w).1.Lost (store.latest? w.storage)
      (store.latest? (call.run host w).2.storage) thread) :
    Reaches g store thread host start (call.run host w).2

/-- A world in which a thread can begin: nothing is under way, the thread has no checkpoint, and
all checkpoints stand at the steps of their states. -/
structure Begins {σ : Type} (store : Store) (SoundStorage : Storage → Prop) (thread : String)
    (w : World σ) : Prop where
  idle : w.crew.strands = []
  storage : SoundStorage w.storage
  fresh : store.latest? w.storage thread = none
  sound : Latest.Sound (store.latest? w.storage)

section

variable {σ : Type} {SoundStorage : Storage → Prop} {host : Host σ} {start w : World σ}

theorem Begins.pending? (h : Begins store SoundStorage thread start) :
    Latest.pending? (store.latest? start.storage) thread = none := by
  unfold Latest.pending?
  rw [h.fresh]
  rfl

/-- By induction on the calls. -/
theorem Visits.seen (hw : g.Visits thread host start w)
    (hg : g.Placed store watched thread) (hworks : store.Works SoundStorage)
    (hstart : Begins store SoundStorage thread start) :
    g.Seen store SoundStorage watched thread w := by
  induction hw with
  | start =>
    refine ⟨⟨store.latest? start.storage, hstart.sound, ?_, ?_⟩, .idle _ _ hstart.pending?⟩
    · exact ⟨hstart.storage, fun _ _ => rfl⟩
    · rw [hstart.idle]
      simp [Crew.trees]
  | call _ hcall ih => exact ih.next hg hworks host hcall

theorem Reaches.visits (hw : g.Reaches store thread host start w) :
    g.Visits thread host start w := by
  induction hw with
  | start => exact .start
  | call _ hcall _ ih => exact .call ih hcall

/-- By induction on the calls. -/
theorem Reaches.coherent (hw : g.Reaches store thread host start w)
    (hg : g.Placed store watched thread) (hworks : store.Works SoundStorage)
    (hstart : Begins store SoundStorage thread start) :
    Latest.Coherent (store.latest? w.storage) thread := by
  induction hw with
  | start => exact Latest.coherent_of_pending?_eq_none hstart.pending?
  | call hw hcall hkept ih =>
    have hseen := hw.visits.seen hg hworks hstart
    exact (hseen.coherent_iff hg hworks host ih hcall).2 hkept

end

/-- An assembled graph that is apart is placed, in any configuration. -/
theorem placed_of_assemble {c : Compiler} {depth : Nat} {stack : SourceStack} {d : Definition}
    (h : c.assemble (some store) depth stack d = .ok g) (hapart : g.Apart thread)
    (config : RunConfig) :
    (g.withConfig config).Placed store (GraphNode.Threads g.nodes thread) thread := by
  have hwired := Compiler.wired_of_assemble h
  have hhere := hwired.here
  refine ⟨⟨⟨hhere.store, hhere.ids, hhere.overwrites⟩, hwired.inside⟩, hapart, .here _ _⟩

theorem HandsOn.pending? {inner : Graph} {below : String} (h : HandsOn m g thread inner below) :
    ∃ pending, m.pending? thread = some pending := by
  induction h with
  | first hpending => exact ⟨_, hpending⟩
  | further _ _ ih _ => exact ih

theorem Seen.resume_asked {σ : Type} {SoundStorage : Storage → Prop} {w : World σ}
    (h : g.Seen store SoundStorage watched thread w)
    (hcoherent : Latest.Coherent (store.latest? w.storage) thread)
    (hg : g.Placed store watched thread) (hworks : store.Works SoundStorage)
    (host : Host σ) {inner : Graph} {below : String}
    (hon : HandsOn (store.latest? w.storage) g thread inner below) (value : Value) (s : State) :
    ((inner.resume below value).run host w).1 ≠ .failed (.noPendingInterrupt below) s := by
  obtain ⟨pending, hpending⟩ := hon.pending?
  obtain ⟨hinner, waiting, hwaits⟩ :=
    hon.awaits hg ⟨pending, h.rooted.awaits hcoherent hpending⟩
  obtain ⟨m, hm, hshows⟩ := h.shows
  have hwaiting : m.pending? below = some waiting := by
    rw [← Latest.pending?_congr (hshows.view.latest below hinner.here)]
    exact hwaits.pending?
  have hmeets := Graph.resume_asked hinner hm hwaiting value
  obtain ⟨_, _, hasked⟩ := hmeets.run host (Regime.seenThrough_keeping hworks) hshows
  intro hfailed
  exact hasked _ _ hfailed

end Graph

/-! ## The main result -/

open WorkflowGraph.Graph in
/-- **Parent and child suspensions stay coherent unless a call is lost.** Take a graph that has
been assembled on a working store, and a thread on which it is run and resumed from the beginning,
whatever executors and tools answer; no thread of its subgraphs may be one of a task of a map at the
same time. As long as no call has been lost, every thread of the chain of suspensions finds the one
below suspended with the same resume key and the same payload, and no graph that the value of a
caller is handed on to fails for want of a pending interrupt. A further call leaves the chain
coherent if and only if it is not lost itself. -/
theorem suspensions_cohere_unless_lost {c : Compiler} {store : Store} {depth : Nat}
    {stack : SourceStack} {d : Definition} {g : Graph}
    (hg : c.assemble (some store) depth stack d = .ok g) (config : RunConfig) (thread : String)
    (hapart : g.Apart thread) {SoundStorage : Storage → Prop} (hworks : store.Works SoundStorage)
    {σ : Type} (host : Host σ) {start w : World σ}
    (hstart : Begins store SoundStorage thread start)
    (hw : (g.withConfig config).Reaches store thread host start w) :
    Latest.Coherent (store.latest? w.storage) thread ∧
    (∀ inner below, HandsOn (store.latest? w.storage) (g.withConfig config) thread inner below →
      ∀ value s, ((inner.resume below value).run host w).1 ≠
        .failed (.noPendingInterrupt below) s) ∧
    ∀ call, (g.withConfig config).Serves thread call →
      (Latest.Coherent (store.latest? (call.run host w).2.storage) thread ↔
        ¬ (call.run host w).1.Lost (store.latest? w.storage)
          (store.latest? (call.run host w).2.storage) thread) := by
  have hplaced := placed_of_assemble hg hapart config
  have hseen := hw.visits.seen hplaced hworks hstart
  have hcoherent := hw.coherent hplaced hworks hstart
  refine ⟨hcoherent, ?_, ?_⟩
  · intro inner below hon value s
    exact hseen.resume_asked hcoherent hplaced hworks host hon value s
  · exact fun call hcall => hseen.coherent_iff hplaced hworks host hcoherent hcall

/-! ## A graph that asks inside another one -/

/-- A definition that asks for a name and then works on it. -/
def askChild : Value :=
  .object [
    ("edges", .list [.object [("from", .text "ask"), ("to", .text "work")],
      .object [("from", .text "work"), ("to", .text "END")]]),
    ("name", .text "child"),
    ("nodes", .object [
      ("ask", .object [("message", .text "Name?"), ("type", .text "interrupt")]),
      ("work", .object [("output", .text "result"), ("task", .text "work"),
        ("type", .text "transform")])])]

/-- A definition that runs the other one inside it. -/
def askParent : Definition where
  version := none
  name := "root"
  description := none
  entry := none
  defaults := .standard
  tools := []
  nodes := [⟨"sub", .subgraph ⟨none, some askChild, [], [("result", "result")], []⟩, .unset⟩]
  edges := [⟨"sub", .one "END", none⟩]
  loopLimits := []
  checkpoint := none

/-- A compiler with one executor for all tasks. -/
def oneExecutor : Compiler where
  executors _ := .ok ⟨"only", none⟩
  tools := .empty
  loader := .texts []
  store := none
  config := none

/-- The frame of the inner graph. -/
def askChildFrame : GraphFrame where
  name := "child"
  table := ⟨"ask", [("ask", .direct (.node "work")), ("work", .direct .finish)], [], []⟩
  shape := ⟨[("ask_message", ⟨.any, .overwrite, ["ask"], .output⟩),
    ("result", ⟨.any, .overwrite, ["work"], .output⟩),
    ("user_input", ⟨.any, .overwrite, ["ask"], .implicit⟩)]⟩
  config := .standard
  store := some .memory

/-- The nodes of the inner graph. -/
def askChildNodes : List (String × GraphNode) :=
  [("ask", .leaf ⟨"ask", some "ask_message", ⟨.fail, none, none, ["user_input"], []⟩⟩
      (.interrupt ⟨.template "Name?", [], "ask_message", "user_input", true⟩)),
    ("work", .leaf ⟨"work", some "result", ⟨.fail, none, none, ["result"], []⟩⟩
      (.transform ⟨.task ⟨"work", ⟨"only", none⟩, none⟩, [], [], "result", none⟩))]

/-- The graph that the outer definition is compiled to. -/
def askGraph : Graph where
  frame :=
    { name := "root"
      table := ⟨"sub", [("sub", .direct .finish)], [], []⟩
      shape := ⟨[("result", ⟨.any, .overwrite, ["sub"], .output⟩)]⟩
      config := .standard
      store := some .memory }
  nodes := [("sub", .subgraph ⟨"sub", none, ⟨.fail, none, none, ["result"], []⟩⟩
    ⟨[], [("result", "result")], []⟩ askChildFrame askChildNodes)]

/-- A host whose executor is down. -/
def downHost : Host Unit where
  task _ _ _ := (⟨0, .error (.failed "work" "down")⟩, ())
  tool _ _ _ := (⟨0, .error (.failed "work" "down")⟩, ())

/-- The world after the graph has asked. -/
def askedWorld : World Unit :=
  ((askGraph.run .null "t").run downHost (.initial () .empty)).2

/-- The world after the answer has been worked on in vain. -/
def lostWorld : World Unit :=
  ((askGraph.resume "t" (.text "Ada")).run downHost askedWorld).2

/-- What holds of both graphs holds everywhere. -/
theorem askGraph_everywhere {P : GraphFrame → List (String × GraphNode) → Prop}
    (houter : P askGraph.frame askGraph.nodes) (hinner : P askChildFrame askChildNodes) :
    askGraph.Everywhere P := by
  refine ⟨houter, fun p hp => ?_⟩
  obtain rfl := List.mem_singleton.1 hp
  refine .subgraph _ _ hinner fun p hp => ?_
  simp only [askChildNodes, List.mem_cons, List.not_mem_nil, or_false] at hp
  rcases hp with rfl | rfl
  · exact .leaf _ _
  · exact .leaf _ _

theorem askGraph_unbracketed : askGraph.Unbracketed := by
  apply askGraph_everywhere
  · intro p hp
    obtain rfl := List.mem_singleton.1 hp
    show '[' ∉ "sub".toList
    decide
  · intro p hp
    simp only [askChildNodes, List.mem_cons, List.not_mem_nil, or_false] at hp
    rcases hp with rfl | rfl
    · trivial
    · trivial

theorem begins_empty (thread : String) :
    Graph.Begins Store.memory Storage.SoundMemory thread
      (.initial () .empty : World Unit) where
  idle := rfl
  storage := MemoryStore.sound_empty
  fresh := rfl
  sound := by rintro _ _ ⟨⟩

/-- The world after the graph has asked is reached, and its chain is coherent: the thread waits for
the one below, which is suspended with the same key and payload. -/
theorem askedWorld_coherent :
    oneExecutor.assemble (some .memory) 2 .empty askParent = .ok askGraph ∧
    askGraph.Reaches .memory "t" downHost (.initial () .empty) askedWorld ∧
    Latest.pending? (Store.memory.latest? askedWorld.storage) "t" =
      some ⟨"sub", "user_input", .text "Name?", true⟩ ∧
    Latest.Coherent (Store.memory.latest? askedWorld.storage) "t" := by
  have hg : oneExecutor.assemble (some .memory) 2 .empty askParent = .ok askGraph := by
    with_unfolding_all rfl
  have hreaches : askGraph.Reaches .memory "t" downHost (.initial () .empty) askedWorld := by
    refine .call .start (.inl ⟨.null, rfl⟩) ?_
    rintro ⟨⟨e, s, hfailed⟩, _, _⟩
    cases hfailed
  have hcoheres := suspensions_cohere_unless_lost hg .standard "t"
    (Graph.apart_of_unbracketed askGraph_unbracketed "t") Store.memory_works downHost
    (begins_empty "t") hreaches
  exact ⟨hg, hreaches, rfl, hcoheres.1⟩

/-- A call that is lost: its thread still waits for the one below, which does not wait for anything
any more, and to resume it again fails for want of a pending interrupt. -/
theorem lostWorld_incoherent :
    oneExecutor.assemble (some .memory) 2 .empty askParent = .ok askGraph ∧
    Latest.pending? (Store.memory.latest? lostWorld.storage) "t" =
      some ⟨"sub", "user_input", .text "Name?", true⟩ ∧
    Latest.pending? (Store.memory.latest? lostWorld.storage) "t/sub" = none ∧
    ¬ Latest.Coherent (Store.memory.latest? lostWorld.storage) "t" ∧
    ∃ s, ((askGraph.resume "t" (.text "Ada")).run downHost lostWorld).1 =
      .failed (.nodeExecution "sub" 1 (.failed "sub" ("subgraph " ++ ticked "child" ++
        " failed: " ++ (RunError.noPendingInterrupt "t/sub").message))) s := by
  have hwaits : Latest.pending? (Store.memory.latest? lostWorld.storage) "t" =
      some ⟨"sub", "user_input", .text "Name?", true⟩ := by
    with_unfolding_all rfl
  have hbelow : Latest.pending? (Store.memory.latest? lostWorld.storage) "t/sub" = none := by
    with_unfolding_all rfl
  refine ⟨by with_unfolding_all rfl, hwaits, hbelow, ?_, _, by with_unfolding_all rfl⟩
  intro hcoherent
  obtain ⟨inner, hinner, _⟩ := hcoherent "t" (.here "t") _ hwaits rfl
  rw [show ("t" ++ "/" ++ "sub" : String) = "t/sub" from rfl, hbelow] at hinner
  cases hinner

end WorkflowGraph
