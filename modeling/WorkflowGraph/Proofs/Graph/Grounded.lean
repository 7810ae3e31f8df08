import WorkflowGraph.Proofs.Activity.Grounded
import WorkflowGraph.Proofs.Graph.Boundary

/-!
# Nodes that know what they ask for

A node that is entered afresh knows nothing of the threads below it, and needs to know nothing:
every subgraph forgets its thread before it asks for it (`GraphNode.behaviour_grounded`). A subgraph
that is entered again asks for its thread, and for the threads below it, as they have been left
(`GraphNode.reentry_grounded`).
-/

set_option autoImplicit false

namespace WorkflowGraph

open Activity

variable {α : Type} {P R : Store → Prop} {F : Prop} {known : String → Prop}

/-! ## Executing nodes -/

namespace NodeFrame

variable {f : NodeFrame} {scope : Scope}

theorem limited_grounded {p : Activity Attempt} {post : Attempt → (String → Prop) → Prop}
    (h : p.Grounded P R F known post)
    (hlate : ∀ limit l, post (.of (.error (.timeout f.id limit))) l) :
    (f.limited scope p).Grounded P R F known post := by
  unfold limited
  split
  · exact h
  · refine (h.within _).bind ?_
    rintro (_ | ⟨a, left⟩) l _ ha
    · exact .done (hlate _ _)
    · exact .done (ha _ rfl)

theorem execute_grounded {b : Behaviour} {s : State}
    (hb : ∀ v : Visit, v.resume = none →
      (b v).Grounded P R F (fun _ => False) fun _ _ => True) :
    (f.execute b s scope none).Grounded P R F (fun _ => False) fun _ _ => True := by
  have hexecute : (Grounded.judgement P R F).Holds (fun _ => False) (fun r => ∀ e ∈ r.errors, True)
      (f.execute b s scope none) :=
    execute_holds _ (fun _ _ _ => trivial) (.inl (Grounded.cuts_judgement P R F))
      fun v _ hv _ => (hb v hv).weaken fun _ _ _ _ _ => trivial
  exact (hexecute fun _ h => h.elim).weaken fun _ _ _ => trivial

end NodeFrame

/-! ## Runs of a graph -/

namespace GraphFrame

variable {g : GraphFrame} {runner? : String → Option Runner} {thread : String}

/-- The threads that a walk of a graph asks for: its own thread, if the graph has a store. -/
def Keeps (g : GraphFrame) (thread u : String) : Prop := u = thread ∧ g.store ≠ none

theorem walk_grounded (hstore : ∀ kept, g.store = some kept → P kept) (hthread : thread ≠ "")
    (hruns : ∀ id runner, runner? id = some runner → ∀ s,
      (runner s ⟨thread, g.config⟩ none).Grounded P R F (fun _ => False) fun _ _ => True)
    (s : State) (start : String) :
    (g.walk runner? s start thread none).Grounded P R F (g.Keeps thread) fun _ l =>
      g.store ≠ none → l thread := by
  have hnamed (u : String) (hu : g.Keeps thread u) : u ≠ "" := hu.1 ▸ hthread
  have hwalk : (Grounded.judgement P R F).Holds (g.Keeps thread) (fun _ => True)
      (g.walk runner? s start thread none) := by
    have hkeeps (kept : Store) (hkept : g.store = some kept) : P kept ∧ g.Keeps thread thread := by
      refine ⟨hstore kept hkept, rfl, ?_⟩
      rw [hkept]
      exact Option.some_ne_none kept
    refine walk_holds _ hkeeps (fun id runner hrunner t r hr => ?_)
      (.inl (Grounded.cuts_judgement P R F)) s start
    rw [hr rfl]
    exact fun _ => (hruns id runner hrunner t).mono (fun _ h => h.elim) fun _ _ _ _ _ => trivial
  exact (hwalk hnamed).known_still.weaken fun _ l hl hkept => hl.2 _ ⟨rfl, hkept⟩

/-- A graph that is run on a thread that has just been forgotten starts at its entry, and knows the
thread. -/
theorem renew_grounded (hstore : ∀ kept, g.store = some kept → P kept ∧ R kept)
    (hthread : thread ≠ "") {post : α → (String → Prop) → Prop} {fail : RunError → Activity α}
    {next : RunResult → Activity α} (input : Fields)
    (h : ((g.walk runner? (.ofFields input) g.table.entry thread none).bind next).Grounded P R F
      (fun u => g.Keeps thread u ∨ known u) post)
    (hmono : ∀ a (k l : String → Prop), (∀ u, k u → l u) → post a k → post a l) :
    ((g.reset thread).bind fun
      | .error e => fail e
      | .ok _ => (g.runThread runner? input thread).bind next).Grounded P R F known post := by
  unfold reset runThread load
  cases hkept : g.store with
  | none => exact h.mono (fun u hu => hu.resolve_left fun hk => hk.2 hkept) hmono
  | some kept =>
    exact .renew (hstore kept hkept) hthread rfl (h.mono (fun u hu => hu.imp_left And.left) hmono)

end GraphFrame

/-! ## Nodes -/

namespace GraphNode

theorem map_behaviour_grounded (hfork : F) (n : MapNode) (id : String) {inner : Runner} {v : Visit}
    (h : ∀ s index,
      (inner s (MapNode.taskScope id v.scope index) none).Grounded P R F known fun _ _ => True) :
    (n.behaviour id inner v).Grounded P R F known fun _ _ => True := by
  unfold MapNode.behaviour
  split
  · exact .done trivial
  · exact .done trivial
  · dsimp only
    rw [MapNode.map_indexed]
    exact (Grounded.all hfork _ fun i => h _ _).bind fun _ _ _ _ => .done trivial

/-- A subgraph that is entered afresh forgets its thread, and knows it then. -/
theorem subgraph_behaviour_grounded (frame : NodeFrame) (mappings : FieldMappings)
    {graph : GraphFrame} {nodes : List (String × GraphNode)} (hgraph : StoredIn P graph nodes)
    (hnodes : ∀ p ∈ nodes, ∀ s scope,
      (p.2.runner s scope none).Grounded P P F (fun _ => False) fun _ _ => True)
    {v : Visit} (hv : v.resume = none) :
    (mappings.behaviour frame.id graph (runnerIn? nodes) v).Grounded P P F (fun _ => False)
      fun _ l => graph.store ≠ none → l (v.scope.childThread frame.id) := by
  have hchild := (Thread.inside_childThread v.scope frame.id).ne_empty
  have hwalk := GraphFrame.walk_grounded hgraph hchild
    (fun id runner (hrunner : runnerIn? nodes id = some runner) s => by
      obtain ⟨node, hmem, rfl⟩ := exists_of_runnerIn? hrunner
      exact hnodes _ hmem s _)
    (.ofFields (mappings.inputOf v.state)) graph.table.entry
  rw [mappings.behaviour_fresh frame.id graph _ hv]
  have hstore (kept : Store) (hkept : graph.store = some kept) : P kept ∧ P kept :=
    ⟨hgraph kept hkept, hgraph kept hkept⟩
  refine GraphFrame.renew_grounded hstore hchild _
    ((hwalk.mono (fun _ => .inl) fun _ _ _ hl hk h => hl _ (hk h)).bind fun _ _ _ hl => .done hl)
    fun _ _ _ hl hk h => hl _ (hk h)

/-- What a node does in one attempt. -/
def behaviour : GraphNode → Behaviour
  | .leaf frame action => action.behaviour frame.id
  | .map frame spec inner => MapNode.behaviour ⟨spec, inner.frame.output⟩ frame.id inner.runner
  | .subgraph frame mappings graph nodes => mappings.behaviour frame.id graph (runnerIn? nodes)

theorem runner_eq (node : GraphNode) : node.runner = node.frame.execute node.behaviour := by
  cases node with
  | leaf | map | subgraph => unfold runner; rfl

/-- Whether a node enters a graph inside it again. -/
def Reenters : GraphNode → Option Value → Prop
  | .subgraph _ _ _ _, some _ => True
  | _, _ => False

/-- Whether a thread is that of a graph inside a node, which keeps checkpoints. -/
def Owns (node : GraphNode) (scope : Scope) (thread : String) : Prop :=
  match node with
  | .subgraph frame _ graph _ => graph.Keeps (scope.childThread frame.id) thread
  | _ => False

/-- Whether a node is a map or has one inside it. -/
def FansOut (node : GraphNode) : Prop :=
  ∃ frame spec inner, (GraphNode.map frame spec inner).Inside node

/-- **A node that does not enter a graph again knows what it asks for**, and the thread of a graph
inside it afterwards. By induction on the graphs inside it. -/
theorem behaviour_grounded {node : GraphNode} (h : node.EveryGraph (StoredIn P))
    (hmaps : node.FansOut → F) {v : Visit} (hv : ¬ node.Reenters v.resume) :
    (node.behaviour v).Grounded P P F (fun _ => False) fun _ l =>
      ∀ u, node.Owns v.scope u → l u := by
  have hrunner {node : GraphNode} (hnode : ∀ v : Visit, ¬ node.Reenters v.resume →
      (node.behaviour v).Grounded P P F (fun _ => False) fun _ l =>
        ∀ u, node.Owns v.scope u → l u) (s : State) (scope : Scope) :
      (node.runner s scope none).Grounded P P F (fun _ => False) fun _ _ => True := by
    rw [runner_eq]
    refine NodeFrame.execute_grounded fun v hv => (hnode v ?_).weaken fun _ _ _ => trivial
    rw [hv]
    cases node <;> exact id
  induction h generalizing v with
  | leaf frame action =>
    have hholds :=
      action.behaviour_holds (Grounded.judgement P P F) (O := fun _ => False) frame.id v
    exact (hholds fun _ h => h.elim).weaken fun _ _ _ _ h => h.elim
  | @map frame spec inner _ ih =>
    have hinside : inner.FansOut → F := by
      rintro ⟨f, s, n, hn⟩
      exact hmaps ⟨f, s, n, .map _ _ hn⟩
    have htasks (s : State) (index : Nat) :=
      hrunner (fun v hv => ih hinside hv) s (MapNode.taskScope frame.id v.scope index)
    exact (map_behaviour_grounded (hmaps ⟨frame, spec, inner, .self⟩) _ _ htasks).weaken
      fun _ _ _ _ h => h.elim
  | @subgraph frame mappings graph nodes here _ ih =>
    have hfresh : v.resume = none := by
      cases hresume : v.resume with
      | none => rfl
      | some value =>
        rw [hresume] at hv
        exact (hv trivial).elim
    have hnodes (p : String × GraphNode) (hp : p ∈ nodes) (s : State) (scope : Scope) :
        (p.2.runner s scope none).Grounded P P F (fun _ => False) fun _ _ => True := by
      refine hrunner (fun v hv => ih p hp ?_ hv) s scope
      rintro ⟨f, m, n, hn⟩
      exact hmaps ⟨f, m, n, .subgraph _ _ _ hp hn⟩
    refine (subgraph_behaviour_grounded frame mappings here hnodes hfresh).weaken ?_
    rintro _ l hl u ⟨rfl, hkept⟩
    exact hl hkept

/-- The threads that a node asks for as they have been left: that of a graph that it enters again,
and those below. -/
def AsksFor (node : GraphNode) (scope : Scope) (resume : Option Value) (thread : String) : Prop :=
  match node, resume with
  | .subgraph frame _ _ _, some _ =>
    thread = scope.childThread frame.id ∨ Thread.Inside (scope.childThread frame.id) thread
  | _, _ => False

/-- A node that enters a graph again asks for nothing but the threads of this graph. -/
theorem reentry_grounded {node : GraphNode} (h : node.EveryGraph (StoredIn P)) {v : Visit}
    (hv : node.Reenters v.resume) :
    (node.behaviour v).Grounded P (fun _ => False) True (node.AsksFor v.scope v.resume)
      fun _ l => ∀ u, node.Owns v.scope u → l u := by
  cases h with
  | leaf | map => exact hv.elim
  | @subgraph frame mappings graph nodes here hinside =>
    cases hresume : v.resume with
    | none =>
      rw [hresume] at hv
      exact hv.elim
    | some value =>
      have hchild := Thread.inside_childThread v.scope frame.id
      have hcuts := Grounded.cuts_judgement P (fun _ => False) True
      have hruns (id : String) (runner : Runner) (hrunner : runnerIn? nodes id = some runner)
          (s : State) (resume : Option Value) :
          (Grounded.judgement P (fun _ => False) True).Holds
            ((GraphNode.subgraph frame mappings graph nodes).AsksFor v.scope (some value))
            (fun _ => True) (runner s ⟨v.scope.childThread frame.id, graph.config⟩ resume) := by
        obtain ⟨node, hmem, rfl⟩ := exists_of_runnerIn? hrunner
        exact Judgement.mono _ (runner_holds (Grounded.discipline P fun _ => False)
          (fun _ _ _ => trivial) (hinside _ hmem) (.inl hcuts) s _ resume (.inl hcuts))
          (fun _ => .inr) fun _ _ => trivial
      have hresumed := GraphFrame.resumeThread_holds _
        (fun kept hkept => ⟨here kept hkept, .inl rfl⟩) hruns (.inl hcuts) value
      have hknown := (hresumed fun u hu => ?_).known_still
      · unfold behaviour FieldMappings.behaviour
        dsimp only
        rw [hresume]
        exact hknown.bind fun r l _ hl => .done fun u hu => hl.2 u (.inl hu.1)
      · rcases hu with rfl | hu
        · exact hchild.ne_empty
        · exact hu.ne_empty

/-- A node keeps to every discipline in an attempt, on the threads below that of its graph. -/
theorem behaviour_holds (L : Discipline P fun r => ∀ e ∈ r.errors, True) {node : GraphNode}
    (h : node.EveryGraph (StoredIn P)) {v : Visit}
    (hcuts : L.Cuts ∨ node.Untimed ∧ v.scope.config.nodeTimeout = none) :
    L.Holds (Thread.Inside v.scope.thread) (fun a => ∀ e ∈ a.errors, True) (node.behaviour v) := by
  have hscope := hcuts.imp_right And.right
  cases h with
  | leaf frame action =>
    exact L.mono (action.behaviour_holds L.toJudgement frame.id v) (fun _ h => h)
      fun _ _ _ _ => trivial
  | map frame spec hinner =>
    have huntimed := hcuts.imp_right fun | ⟨.map _ _ _ h, _⟩ => h
    exact map_behaviour_holds L _ frame.id
      (fun s scope resume => runner_holds L (fun _ _ _ => trivial) hinner huntimed s scope resume)
      hscope
  | @subgraph frame mappings graph nodes here hinside =>
    have hnode := hcuts.imp_right fun | ⟨.subgraph _ _ _ h _ _, _⟩ => h
    have hrun := hcuts.imp_right fun | ⟨.subgraph _ _ _ _ h _, _⟩ => h
    refine subgraph_behaviour_holds L frame mappings here (fun p hp s resume thread => ?_) hrun v
    have huntimed := hcuts.imp_right fun | ⟨.subgraph _ _ _ _ _ h, _⟩ => h p hp
    exact runner_holds L (fun _ _ _ => trivial) (hinside p hp) huntimed s ⟨thread, graph.config⟩
      resume hnode

end GraphNode

end WorkflowGraph
