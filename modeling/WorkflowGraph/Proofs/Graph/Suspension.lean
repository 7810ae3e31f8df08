import WorkflowGraph.Proofs.Checkpoint.Latest

/-!
# Suspended threads

A thread whose latest checkpoint is suspended either waits at an interrupt of its own, or on behalf
of a subgraph, whose thread is below it and waits as well. The threads that are tied together in
this way form a chain (`Latest.OnChain`). The chain is coherent where every thread on it that waits
for the one below agrees with it (`Latest.Coherent`). A chain of a graph is always rooted in its
nodes (`GraphNode.Rooted`), and it is in place where it is coherent as well, so that it leads down
to an interrupt (`GraphNode.Awaits`).
-/

set_option autoImplicit false

namespace WorkflowGraph

namespace Latest

/-- What a thread waits for. -/
def pending? (m : Latest) (thread : String) : Option PendingInterrupt :=
  (m thread).bind fun c => c.state.interrupt

theorem pending?_eq_some_iff {m : Latest} {thread : String} {pending : PendingInterrupt} :
    m.pending? thread = some pending ↔
      ∃ c, m thread = some c ∧ c.state.interrupt = some pending :=
  Option.bind_eq_some_iff

/-- What a thread waits for is a matter of its latest checkpoint only. -/
theorem pending?_congr {m k : Latest} {thread : String} (h : k thread = m thread) :
    k.pending? thread = m.pending? thread := by
  unfold pending?
  rw [h]

theorem pending?_update_self (m : Latest) (thread : String) (latest : Option Checkpoint) :
    Latest.pending? (Function.update m thread latest) thread =
      latest.bind fun c => c.state.interrupt := by
  unfold pending?
  rw [Function.update_self]

/-- Whether every checkpoint stands at the step of its state. -/
def Sound (m : Latest) : Prop := ∀ thread c, m thread = some c → c.step = c.state.step

/-- Whether every thread is as it was before, or waits for nothing. -/
def Calmer (m k : Latest) : Prop := ∀ thread, k thread = m thread ∨ k.pending? thread = none

theorem Calmer.refl (m : Latest) : m.Calmer m := fun _ => .inl rfl

theorem Calmer.trans {m k l : Latest} (h : m.Calmer k) (h' : k.Calmer l) : m.Calmer l := by
  intro thread
  rcases h' thread with heq | hnone
  · rcases h thread with heq' | hnone
    · exact .inl (heq.trans heq')
    · exact .inr ((pending?_congr heq).trans hnone)
  · exact .inr hnone

theorem Calmer.update {m : Latest} {thread : String} {latest : Option Checkpoint}
    (h : ∀ c, latest = some c → c.state.interrupt = none) :
    m.Calmer (Function.update m thread latest) := by
  intro other
  by_cases hsame : other = thread
  · subst hsame
    refine .inr ?_
    rw [pending?_update_self]
    cases latest with
    | none => rfl
    | some c => exact h c rfl
  · exact .inl (Function.update_of_ne hsame _ _)

theorem Sound.update {m : Latest} (hm : m.Sound) {thread : String} {latest : Option Checkpoint}
    (h : ∀ c, latest = some c → c.step = c.state.step) :
    Latest.Sound (Function.update m thread latest) := by
  intro other c hc
  by_cases hsame : other = thread
  · subst hsame
    rw [Function.update_self] at hc
    exact h c hc
  · rw [Function.update_of_ne hsame] at hc
    exact hm other c hc

/-! ## Chains -/

/-- The threads that a suspended thread is tied to, itself included. -/
inductive OnChain (m : Latest) : String → String → Prop where
  | here (thread : String) : OnChain m thread thread
  | further {thread other : String} {pending : PendingInterrupt}
    (hpending : m.pending? thread = some pending) (hnested : pending.nested = true)
    (h : OnChain m (thread ++ "/" ++ pending.node) other) : OnChain m thread other

/-- Whether every thread on a chain that waits for the one below finds it suspended, with the same
resume key and the same payload. -/
def Coherent (m : Latest) (thread : String) : Prop :=
  ∀ other, OnChain m thread other → ∀ pending, m.pending? other = some pending →
    pending.nested = true →
    ∃ inner, m.pending? (other ++ "/" ++ pending.node) = some inner ∧
      inner.resumeKey = pending.resumeKey ∧ inner.payload = pending.payload

theorem OnChain.eq_or_inside {m : Latest} {thread other : String} (h : OnChain m thread other) :
    other = thread ∨ Thread.Inside thread other := by
  induction h with
  | here thread => exact .inl rfl
  | @further thread other pending hpending hnested h ih =>
    have hchild : Thread.Inside thread (thread ++ "/" ++ pending.node) := ⟨_, rfl⟩
    rcases ih with rfl | hinside
    · exact .inr hchild
    · exact .inr (hchild.trans hinside)

theorem OnChain.eq_of_pending?_eq_none {m : Latest} {thread other : String}
    (h : OnChain m thread other) (hnone : m.pending? thread = none) : other = thread := by
  cases h with
  | here => rfl
  | further hpending => rw [hnone] at hpending; cases hpending

theorem coherent_of_pending?_eq_none {m : Latest} {thread : String}
    (hnone : m.pending? thread = none) : m.Coherent thread := by
  intro other hother pending hpending
  rw [hother.eq_of_pending?_eq_none hnone, hnone] at hpending
  cases hpending

theorem Coherent.below {m : Latest} {thread : String} {pending : PendingInterrupt}
    (h : m.Coherent thread) (hpending : m.pending? thread = some pending)
    (hnested : pending.nested = true) : m.Coherent (thread ++ "/" ++ pending.node) :=
  fun other hother => h other (.further hpending hnested hother)

theorem coherent_of_not_nested {m : Latest} {thread : String} {pending : PendingInterrupt}
    (hpending : m.pending? thread = some pending) (hnested : pending.nested = false) :
    m.Coherent thread := by
  intro other hother waiting hwaiting hnested'
  cases hother with
  | here =>
    rw [hpending] at hwaiting
    cases hwaiting
    rw [hnested] at hnested'
    cases hnested'
  | further hpending' hnested' =>
    rw [hpending] at hpending'
    cases hpending'
    rw [hnested] at hnested'
    cases hnested'

theorem Coherent.above {m : Latest} {thread : String} {pending inner : PendingInterrupt}
    (h : m.Coherent (thread ++ "/" ++ pending.node)) (hpending : m.pending? thread = some pending)
    (hinner : m.pending? (thread ++ "/" ++ pending.node) = some inner)
    (hkey : inner.resumeKey = pending.resumeKey) (hpayload : inner.payload = pending.payload) :
    m.Coherent thread := by
  intro other hother waiting hwaiting hnested
  cases hother with
  | here =>
    rw [hpending] at hwaiting
    cases hwaiting
    exact ⟨inner, hinner, hkey, hpayload⟩
  | further hpending' _ hother' =>
    rw [hpending] at hpending'
    cases hpending'
    exact h other hother' waiting hwaiting hnested

end Latest

/-! ## Chains in graphs -/

namespace GraphNode

/-- Whether a thread of a graph, where it waits for something, does so at an interrupt of the graph
itself or at one of its subgraphs, whose thread waits for the same thing if it waits at all, and so
on for the threads that it is tied to. -/
inductive Rooted (m : Latest) : GraphFrame → List (String × GraphNode) → String → Prop where
  | idle (g : GraphFrame) (nodes : List (String × GraphNode)) {thread : String}
    (hnone : m.pending? thread = none) : Rooted m g nodes thread
  | interrupt {g : GraphFrame} {nodes : List (String × GraphNode)} {thread node : String}
    {payload : Value} {frame : NodeFrame} {n : InterruptNode}
    (hpending : m.pending? thread = some ⟨node, n.resumeKey, payload, false⟩)
    (hsteps : 0 < g.config.maxSteps)
    (hnode : lookup? nodes node = some (.leaf frame (.interrupt n))) : Rooted m g nodes thread
  | subgraph {g : GraphFrame} {nodes : List (String × GraphNode)} {thread node key : String}
    {payload : Value} {frame : NodeFrame} {mappings : FieldMappings} {graph : GraphFrame}
    {inside : List (String × GraphNode)}
    (hpending : m.pending? thread = some ⟨node, key, payload, true⟩)
    (hsteps : 0 < g.config.maxSteps)
    (hnode : lookup? nodes node = some (.subgraph frame mappings graph inside))
    (hsame : ∀ inner, m.pending? (thread ++ "/" ++ node) = some inner →
      inner.resumeKey = key ∧ inner.payload = payload)
    (hinner : Rooted m graph inside (thread ++ "/" ++ node)) : Rooted m g nodes thread

/-- Whether a thread of a graph waits for something at an interrupt of the graph itself, or at one
inside its subgraphs, with every thread in between waiting for the same. -/
inductive Awaits (m : Latest) : GraphFrame → List (String × GraphNode) → String →
    PendingInterrupt → Prop where
  | interrupt {g : GraphFrame} {nodes : List (String × GraphNode)} {thread node : String}
    {payload : Value} {frame : NodeFrame} {n : InterruptNode}
    (hpending : m.pending? thread = some ⟨node, n.resumeKey, payload, false⟩)
    (hsteps : 0 < g.config.maxSteps)
    (hnode : lookup? nodes node = some (.leaf frame (.interrupt n))) :
    Awaits m g nodes thread ⟨node, n.resumeKey, payload, false⟩
  | subgraph {g : GraphFrame} {nodes : List (String × GraphNode)} {thread node : String}
    {frame : NodeFrame} {mappings : FieldMappings} {graph : GraphFrame}
    {inside : List (String × GraphNode)} {inner : PendingInterrupt}
    (hpending : m.pending? thread = some ⟨node, inner.resumeKey, inner.payload, true⟩)
    (hsteps : 0 < g.config.maxSteps)
    (hnode : lookup? nodes node = some (.subgraph frame mappings graph inside))
    (hinner : Awaits m graph inside (thread ++ "/" ++ node) inner) :
    Awaits m g nodes thread ⟨node, inner.resumeKey, inner.payload, true⟩

variable {m k : Latest} {g : GraphFrame} {nodes : List (String × GraphNode)} {thread : String}
  {pending : PendingInterrupt}

theorem Awaits.pending? (h : Awaits m g nodes thread pending) :
    m.pending? thread = some pending := by
  cases h with
  | interrupt hpending => exact hpending
  | subgraph hpending => exact hpending

/-- Only what is on the chain matters. By induction on the chain. -/
theorem Awaits.congr (h : Awaits m g nodes thread pending)
    (hsame : ∀ other, m.OnChain thread other → k other = m other) :
    Awaits k g nodes thread pending := by
  induction h with
  | interrupt hpending hsteps hnode =>
    exact .interrupt ((Latest.pending?_congr (hsame _ (.here _))).trans hpending) hsteps hnode
  | subgraph hpending hsteps hnode _ ih =>
    have hbelow := ih fun other hother => hsame other (.further hpending rfl hother)
    exact .subgraph ((Latest.pending?_congr (hsame _ (.here _))).trans hpending) hsteps hnode hbelow

theorem Awaits.rooted (h : Awaits m g nodes thread pending) : Rooted m g nodes thread := by
  induction h with
  | interrupt hpending hsteps hnode => exact .interrupt hpending hsteps hnode
  | subgraph hpending hsteps hnode hinner ih =>
    refine .subgraph hpending hsteps hnode ?_ ih
    intro inner hwaits
    rw [hinner.pending?] at hwaits
    cases hwaits
    exact ⟨rfl, rfl⟩

/-- A chain that is in place is coherent. By induction on the chain. -/
theorem Awaits.coherent (h : Awaits m g nodes thread pending) : m.Coherent thread := by
  induction h with
  | interrupt hpending => exact Latest.coherent_of_not_nested hpending rfl
  | subgraph hpending _ _ hinner ih => exact ih.above hpending hinner.pending? rfl rfl

/-- A rooted chain is in place if it is coherent. By induction on the chain: each thread finds the
one below suspended. -/
theorem Rooted.awaits (h : Rooted m g nodes thread) (hcoherent : m.Coherent thread)
    (hpending : m.pending? thread = some pending) : Awaits m g nodes thread pending := by
  induction h generalizing pending with
  | idle g nodes hnone =>
    rw [hnone] at hpending
    cases hpending
  | interrupt hpending' hsteps hnode =>
    have hsame := hpending.symm.trans hpending'
    cases hsame
    exact .interrupt hpending hsteps hnode
  | subgraph hpending' hsteps hnode _ _ ih =>
    obtain ⟨inner, hinner, rfl, rfl⟩ := hcoherent _ (.here _) _ hpending' rfl
    have hsame := hpending.symm.trans hpending'
    cases hsame
    exact .subgraph hpending hsteps hnode (ih (hcoherent.below hpending' rfl) hinner)

/-- A rooted chain stays rooted where each of its threads is as it was or waits for nothing. -/
theorem Rooted.calmer (h : Rooted m g nodes thread)
    (hcalm : ∀ u, m.OnChain thread u → k u = m u ∨ k.pending? u = none) :
    Rooted k g nodes thread := by
  induction h with
  | @idle g nodes thread hnone =>
    rcases hcalm thread (.here thread) with hsame | hnone'
    · exact .idle g nodes ((Latest.pending?_congr hsame).trans hnone)
    · exact .idle g nodes hnone'
  | @interrupt g nodes thread node payload frame n hpending hsteps hnode =>
    rcases hcalm thread (.here thread) with hsame | hnone
    · exact .interrupt ((Latest.pending?_congr hsame).trans hpending) hsteps hnode
    · exact .idle g nodes hnone
  | @subgraph g nodes thread node key payload frame mappings graph inside hpending hsteps hnode
      hagrees hinner ih =>
    rcases hcalm thread (.here thread) with hsame | hnone
    · have hbelow := ih fun u hu => hcalm u (.further hpending rfl hu)
      refine .subgraph ((Latest.pending?_congr hsame).trans hpending) hsteps hnode ?_ hbelow
      intro inner hwaits
      rcases hcalm _ (.further hpending rfl (.here _)) with hstill | hnone
      · rw [Latest.pending?_congr hstill] at hwaits
        exact hagrees inner hwaits
      · rw [hnone] at hwaits
        cases hwaits
    · exact .idle g nodes hnone

end GraphNode

end WorkflowGraph
