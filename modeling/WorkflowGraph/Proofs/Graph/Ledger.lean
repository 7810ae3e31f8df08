import WorkflowGraph.Proofs.Activity.Course
import WorkflowGraph.Proofs.Activity.Yields
import WorkflowGraph.Proofs.Checkpoint.Archive
import WorkflowGraph.Proofs.Checkpoint.Latest
import WorkflowGraph.Proofs.Graph.Closed
import WorkflowGraph.Proofs.Graph.Discipline

/-!
# What a graph writes on a thread

Everything that a graph saves on a thread is noted in the order in which it has been saved, until
the thread is forgotten. What the thread holds is this record, or the end of it where old
checkpoints are pruned, whatever has happened between: runs that fail, suspend, are resumed, go on
or start again (`checkpoints_in_order`). So no step is ever used again, and what is loaded is what
has been written last.

What a part of a run does is followed call by call (`Ledger.Tells`): the part starts in a world that
holds the record so far, each of its calls fits the record at that moment, and the world at its end
holds what the record has become. Parts are put together as activities are (`Ledger.Tells.bind`).
What nodes do does not show on the thread, and the results of tasks carry no errors that have ended
a run, which is why those of a saved state never do.
-/

set_option autoImplicit false

namespace WorkflowGraph

open Activity

/-! ## Errors that nodes hand on -/

/-- Whether none of the errors of an execution has ended a run. -/
def NodeRun.Unfailed (r : NodeRun) : Prop := ∀ e ∈ r.errors, e.fatal = false

/-- That tasks come to results of one kind is a discipline. -/
def Activity.Discipline.yields (P : Store → Prop) (Q : NodeRun → Prop) : Discipline P Q where
  Holds _ _ post p := p.Yields Q post
  done h := h
  wait h := h
  mono h _ hpost := h.mono hpost
  bind h hnext := yields_bind h hnext
  perform _ := fun _ => trivial
  all limit _ _ _ _ _ h := yields_all limit h

theorem Activity.Discipline.cuts_yields (P : Store → Prop) (Q : NodeRun → Prop) :
    (Discipline.yields P Q).Cuts :=
  fun _ _ _ _ budget h => h.within budget

theorem Activity.Yields.withinOption {α : Type} {Q : NodeRun → Prop} {post : α → Prop}
    {p : Activity α} (h : p.Yields Q post) (budget : Option Nat) :
    (p.withinOption budget).Yields Q fun r => ∀ x, r = some x → post x.1 :=
  ((Discipline.yields (fun _ => True) Q).withinOption (O := fun _ => True) h
    (.inl (Discipline.cuts_yields _ Q))).mono fun _ hr x hx => (hr x hx).1

/-- The executions of a node hand on no errors that have ended a run. -/
theorem GraphNode.runner_unfailed (node : GraphNode) (s : State) (scope : Scope)
    (resume : Option Value) :
    (node.runner s scope resume).Yields NodeRun.Unfailed NodeRun.Unfailed := by
  have hnode : node.EveryGraph (GraphNode.StoredIn fun _ => True) :=
    GraphNode.everyGraph_of_forall node fun _ _ _ _ => trivial
  have hcuts := Discipline.cuts_yields (fun _ => True) NodeRun.Unfailed
  exact GraphNode.runner_holds (Discipline.yields _ NodeRun.Unfailed) (fun _ _ _ => rfl) hnode
    (.inl hcuts) s scope resume (.inl hcuts)

/-! ## The record of a thread -/

/-- What has been saved on a thread since it was forgotten last, after a call. -/
def Call.noted (thread : String) (saved : History) : Call → History
  | .save _ c => if c.thread = thread then saved ++ [(c.step, c)] else saved
  | .delete _ other => if other = thread then [] else saved
  | _ => saved

/-- Whether a call prunes a thread. -/
def Call.Prunes (thread : String) : Call → Prop
  | .prune _ other _ => other = thread
  | _ => False

theorem Call.Elsewhere.noted {store : Store} {thread : String} {c : Call}
    (hc : c.Elsewhere store (thread = ·)) (saved : History) : c.noted thread saved = saved := by
  cases c with
  | save other c => exact if_neg fun h => hc.2 h.symm
  | delete other t => exact if_neg fun h => hc.2 h.symm
  | task | tool | load | prune => rfl

/-- Whether every visit that a state has counted is one that its node may have. -/
def TransitionTable.Allows (table : TransitionTable) (s : State) : Prop :=
  ∀ node visits, s.loopCounters.get? node = some visits →
    ∃ limit, table.limit? node = some limit ∧ visits ≤ limit

/-- Whether none of the errors of a state has ended a run. -/
def State.Unfailed (s : State) : Prop := ∀ e ∈ s.errors, e.fatal = false

/-- The thread of a graph, in a store that is an archive, and the ids of the nodes. -/
structure Ledger where
  store : Store
  Sound : Storage → Prop
  held : Storage → String → History
  graph : GraphFrame
  ids : List String
  thread : String

namespace Ledger

/-- What the thread holds of a record. -/
def kept (L : Ledger) (saved : History) : History :=
  match L.graph.config.checkpointRetention with
  | none => saved
  | some keep => saved.retain (max keep 1)

/-- The record after a list of events. -/
def noted {σ : Type} (L : Ledger) (saved : History) (events : List (Event σ)) : History :=
  events.foldl (fun saved e => e.1.noted L.thread saved) saved

/-- Whether a checkpoint is one that the graph may write. -/
structure Fits (L : Ledger) (c : Checkpoint) : Prop where
  stamped : c.step = c.state.step
  pending : ∀ pending, c.state.interrupt = some pending → c.next = some pending.node
  next : ∀ node, c.next = some node → node ∈ L.ids
  counters : L.graph.table.Allows c.state
  errors : c.state.Unfailed

/-- Whether a call fits the record at the moment at which it is answered: the thread holds what it
should, unless it is just pruned, and what is saved on it fits, is ahead of all that has been saved
before, and is what is loaded afterwards. -/
structure EventFits {σ : Type} (L : Ledger) (saved : History) (e : Event σ) : Prop where
  kept : ¬ e.1.Prunes L.thread → L.held e.2.storage L.thread = L.kept saved
  saves : ∀ store c, e.1 = .save store c → c.thread = L.thread → store = L.store ∧ L.Fits c ∧
    (∀ p ∈ saved, p.1 < c.step) ∧
    L.store.load (L.store.save e.2.storage c).2 L.thread = .ok (some c)

/-- Whether all events of a list fit the record, each at its moment. -/
def Told {σ : Type} (L : Ledger) (saved : History) : List (Event σ) → Prop
  | [] => True
  | e :: rest => L.EventFits saved e ∧ L.Told (e.1.noted L.thread saved) rest

section Events

variable {σ : Type} {L : Ledger} {saved : History}

theorem noted_append (xs ys : List (Event σ)) :
    L.noted saved (xs ++ ys) = L.noted (L.noted saved xs) ys :=
  List.foldl_append

theorem told_append {xs ys : List (Event σ)} :
    L.Told saved (xs ++ ys) ↔ L.Told saved xs ∧ L.Told (L.noted saved xs) ys := by
  induction xs generalizing saved with
  | nil => exact (and_iff_right trivial).symm
  | cons e rest ih =>
    show L.EventFits saved e ∧ L.Told _ (rest ++ ys) ↔ _
    rw [ih, ← and_assoc]
    rfl

theorem Told.fits {front back : List (Event σ)} {e : Event σ}
    (h : L.Told saved (front ++ e :: back)) : L.EventFits (L.noted saved front) e :=
  (told_append.1 h).2.1

/-- Events that have nothing to do with the thread fit, and leave the record as it is. -/
theorem told_of_elsewhere {events : List (Event σ)}
    (h : ∀ e ∈ events, e.1.Elsewhere L.store (L.thread = ·) ∧
      L.held e.2.storage L.thread = L.kept saved) :
    L.Told saved events ∧ L.noted saved events = saved := by
  induction events with
  | nil => exact ⟨trivial, rfl⟩
  | cons e rest ih =>
    obtain ⟨⟨hcall, hheld⟩, hrest⟩ := List.forall_mem_cons.1 h
    obtain ⟨htold, hnoted⟩ := ih hrest
    refine ⟨⟨⟨fun _ => hheld, ?_⟩, ?_⟩, ?_⟩
    · intro store c he hc
      rw [he] at hcall
      exact absurd hc.symm hcall.2
    · rw [hcall.noted]
      exact htold
    · show L.noted (e.1.noted L.thread saved) rest = saved
      rw [hcall.noted]
      exact hnoted

end Events

/-! ## Worlds that hold a record -/

/-- The regime of calls that have nothing to do with the thread. -/
def apart (L : Ledger) : Regime History where
  allows _ c := c.Elsewhere L.store (L.thread = ·)
  answers h _ _ k := k = h
  background c := c.Elsewhere L.store (L.thread = ·)

/-- Whether a storage is sound and holds a history on the thread. -/
def Holding (L : Ledger) (s : Storage) (h : History) : Prop :=
  L.Sound s ∧ L.held s L.thread = h

/-- What a ledger takes for granted: the store is an archive and that of the graph, and the graph
leads to its nodes only. -/
structure Valid (L : Ledger) : Prop where
  archives : L.store.Archives L.Sound L.held
  here : L.graph.store = some L.store
  entry : L.graph.table.entry ∈ L.ids
  next : ∀ node next fields, L.graph.table.next node fields = .ok (some next) → next ∈ L.ids

theorem Valid.seenThrough {L : Ledger} (hL : L.Valid) : L.apart.SeenThrough L.Holding := by
  have hturns {s after : Storage} {thread : String} {h kept : History} (hs : L.Holding s h)
      (hthread : ¬ L.thread = thread) (hafter : Store.Turns L.Sound L.held s thread kept after) :
      L.Holding after h :=
    ⟨hafter.sound, (hafter.elsewhere L.thread hthread).trans hs.2⟩
  have hsame {σ : Type} (host : Host σ) (w : World σ) (h : History) (c : Call)
      (hs : L.Holding w.storage h) (hc : c.Elsewhere L.store (L.thread = ·)) :
      L.Holding (c.answer host w).2.storage h := by
    cases c with
    | task | tool | load => exact hs
    | save other c =>
      obtain ⟨rfl, hthread⟩ := hc
      exact hturns hs hthread (hL.archives.save w.storage c hs.1).2
    | delete other thread =>
      obtain ⟨rfl, hthread⟩ := hc
      exact hturns hs hthread (hL.archives.delete w.storage thread hs.1).2
    | prune other thread keep =>
      obtain ⟨⟨rfl, hthread⟩, hkeep⟩ := hc
      exact hturns hs hthread (hL.archives.prune w.storage thread keep hs.1 hkeep).2
  refine ⟨?_, ?_⟩
  · exact fun host w h c hs hc => ⟨h, rfl, hsame host w h c hs hc⟩
  · exact fun host w h c hs hc => hsame host w h c hs hc

/-- Whether a thread holds a history in a world, which it will hold for as long as only the tasks
under way go on. -/
structure Stands {σ : Type} (L : Ledger) (h : History) (w : World σ) : Prop where
  shows : w.Shows L.apart L.Holding h
  yields : w.Yields NodeRun.Unfailed

theorem Stands.held {σ : Type} {L : Ledger} {h : History} {w : World σ} (hw : L.Stands h w) :
    L.held w.storage L.thread = h := hw.shows.view.2

theorem Stands.answer {σ : Type} {L : Ledger} {h kept : History} {w : World σ} {host : Host σ}
    {c : Call} (hw : L.Stands h w)
    (hturns : Store.Turns L.Sound L.held w.storage L.thread kept (c.answer host w).2.storage) :
    L.Stands kept (c.answer host w).2 :=
  ⟨hw.shows.of_answer ⟨hturns.sound, hturns.here⟩, hw.yields.answer host c⟩

/-- Whether a world holds a record: the thread holds what it should of it, and all that has been
saved fits. -/
structure Keeps {σ : Type} (L : Ledger) (saved : History) (w : World σ) : Prop where
  stands : L.Stands (L.kept saved) w
  rising : saved.Sound
  fits : ∀ p ∈ saved, L.Fits p.2

theorem mem_of_mem_kept {L : Ledger} {saved : History} {p : Nat × Checkpoint}
    (hp : p ∈ L.kept saved) : p ∈ saved := by
  unfold kept at hp
  split at hp
  · exact hp
  · exact List.mem_of_mem_drop hp

theorem kept_nil (L : Ledger) : L.kept [] = [] :=
  List.eq_nil_iff_forall_not_mem.2 fun _ hp => List.not_mem_nil (mem_of_mem_kept hp)

theorem latest?_kept (L : Ledger) (saved : History) : (L.kept saved).latest? = saved.latest? := by
  unfold kept
  split
  · rfl
  · exact saved.latest?_retain (Nat.le_max_right _ _)

theorem Keeps.latest {σ : Type} {L : Ledger} {saved : History} {w : World σ} (h : L.Keeps saved w)
    {c : Checkpoint} (hc : saved.latest? = some c) :
    L.Fits c ∧ ∀ p ∈ saved, p.1 ≤ c.state.step := by
  obtain ⟨front, rfl, hfront⟩ := h.rising.of_latest? hc
  have hfits : L.Fits c := h.fits (c.step, c) (by simp)
  refine ⟨hfits, fun p hp => ?_⟩
  rw [← hfits.stamped]
  rcases List.mem_append.1 hp with hp | hp
  · exact Nat.le_of_lt (hfront p hp)
  · rw [List.mem_singleton.1 hp]

/-! ## Following a run call by call -/

/-- What is to be said of a part of a run: its calls fit the record one after the other, the world
at its end holds what the record has become, and its result satisfies a postcondition. -/
structure Tells {σ α : Type} (L : Ledger) (host : Host σ) (saved : History) (w : World σ)
    (p : Activity α) (post : α → History → Prop) : Prop where
  told : L.Told saved (p.events host w)
  keeps : L.Keeps (L.noted saved (p.events host w)) (p.run host w).2
  post : post (p.run host w).1 (L.noted saved (p.events host w))

section Rules

variable {σ α β : Type} {L : Ledger} {host : Host σ} {saved : History} {w : World σ}

theorem tells_pure {post : α → History → Prop} {a : α} (hw : L.Keeps saved w)
    (h : post a saved) : L.Tells host saved w (pure a) post :=
  ⟨trivial, hw, h⟩

theorem Tells.bind {mid : α → History → Prop} {post : β → History → Prop} {p : Activity α}
    {next : α → Activity β} (h : L.Tells host saved w p mid)
    (hnext : ∀ a later v, L.Keeps later v → mid a later → L.Tells host later v (next a) post) :
    L.Tells host saved w (p >>= next) post := by
  obtain ⟨htold, hkeeps, hpost⟩ := hnext _ _ _ h.keeps h.post
  have hevents := events_bind host w p next
  have hrun : (p >>= next).run host w = (next (p.run host w).1).run host (p.run host w).2 :=
    run_bind host w p next
  rw [← noted_append, ← hevents] at hkeeps hpost
  rw [← hrun] at hkeeps hpost
  refine ⟨?_, hkeeps, hpost⟩
  rw [hevents]
  exact told_append.2 ⟨h.told, htold⟩

/-- A call is followed at the moment at which it is answered; the tasks may have gone on before. -/
theorem Tells.ask (hL : L.Valid) {h : History} (hw : L.Stands h w) {c : Call}
    {next : c.Answer → Activity α} {post : α → History → Prop}
    (hrest : ∀ v, L.Stands h v → L.EventFits saved (c, v) ∧
      L.Tells host (c.noted L.thread saved) (c.answer host v).2 (next (c.answer host v).1) post) :
    L.Tells host saved w (perform c >>= next) post := by
  have hyields : (if c.isSlow then w.rest host else w).Yields NodeRun.Unfailed := by
    split
    · exact hw.yields.settle host _ _
    · exact hw.yields
  obtain ⟨hfits, htold, hkeeps, hpost⟩ :=
    hrest _ ⟨hw.shows.beforeAnswer host hL.seenThrough c, hyields⟩
  exact ⟨⟨hfits, htold⟩, hkeeps, hpost⟩

/-- What has nothing to do with the thread leaves the record as it is. -/
theorem tells_elsewhere (hL : L.Valid) (hw : L.Keeps saved w) {post : α → Prop} {p : Activity α}
    (hcalls : p.Obeys (Call.Elsewhere L.store (L.thread = ·)) fun _ => True)
    (hyields : p.Yields NodeRun.Unfailed post) :
    L.Tells host saved w p fun a later => post a ∧ later = saved := by
  obtain ⟨hevents, hafter⟩ :=
    Obeys.events_show (R := L.apart) hcalls host hL.seenThrough hw.stands.shows
  obtain ⟨htold, hnoted⟩ := told_of_elsewhere fun e he =>
    ⟨(hevents e he).1, (hevents e he).2.view.2⟩
  obtain ⟨hpost, hafterYields⟩ := hyields.run host hw.stands.yields
  refine ⟨htold, ?_, ?_⟩
  · rw [hnoted]
    exact ⟨⟨hafter, hafterYields⟩, hw.rising, hw.fits⟩
  · rw [hnoted]
    exact ⟨hpost, rfl⟩

/-! ## The calls of the thread itself -/

theorem tells_load (hL : L.Valid) (hw : L.Keeps saved w) :
    L.Tells host saved w (L.graph.load L.thread) fun r later =>
      r = .ok saved.latest? ∧ later = saved := by
  unfold GraphFrame.load
  rw [hL.here]
  refine .ask hL hw.stands fun v hv => ⟨⟨fun _ => hv.held, ?_⟩, ?_⟩
  · rintro _ _ ⟨⟩
  · refine tells_pure ⟨hv, hw.rising, hw.fits⟩ ⟨?_, rfl⟩
    have hloaded : L.store.load v.storage L.thread = .ok (L.kept saved).latest? := by
      rw [← hv.held]
      exact hL.archives.load _ _ hv.shows.view.1
    show (L.store.load v.storage L.thread).mapError _ = _
    rw [hloaded, L.latest?_kept]
    rfl

theorem tells_reset (hL : L.Valid) (hw : L.Keeps saved w) :
    L.Tells host saved w (L.graph.reset L.thread) fun r later => r = .ok () ∧ later = [] := by
  unfold GraphFrame.reset
  rw [hL.here]
  refine .ask hL hw.stands fun v hv => ⟨⟨fun _ => hv.held, ?_⟩, ?_⟩
  · rintro _ _ ⟨⟩
  · obtain ⟨hdone, hturns⟩ := hL.archives.delete _ L.thread hv.shows.view.1
    have hnoted : (Call.delete L.store L.thread).noted L.thread saved = [] := if_pos rfl
    rw [hnoted]
    refine tells_pure ⟨?_, ⟨.nil, by simp⟩, by simp⟩ ⟨?_, rfl⟩
    · rw [L.kept_nil]
      exact hv.answer hturns
    · show (L.store.delete v.storage L.thread).1.mapError _ = _
      rw [hdone]
      rfl

/-- What is saved stands behind all that has been saved before, and pruning leaves the end of it. -/
theorem tells_save (hL : L.Valid) (hw : L.Keeps saved w) {s : State} {next : Option String}
    (hfits : L.Fits (L.graph.checkpoint L.thread s next)) (hahead : ∀ p ∈ saved, p.1 < s.step) :
    L.Tells host saved w (L.graph.save L.thread s next) fun r later =>
      r = .ok () ∧ later = saved ++ [(s.step, L.graph.checkpoint L.thread s next)] := by
  set c := L.graph.checkpoint L.thread s next with hc
  have hthread : c.thread = L.thread := rfl
  have hnoted : (Call.save L.store c).noted L.thread saved = saved ++ [(s.step, c)] :=
    if_pos hthread
  have hkeeps {v : World σ} (hv : L.Stands (L.kept (saved ++ [(s.step, c)])) v) :
      L.Keeps (saved ++ [(s.step, c)]) v := by
    refine ⟨hv, ?_, ?_⟩
    · have hsound := hw.rising.put c
      rwa [History.put_of_lt hahead] at hsound
    · intro p hp
      rcases List.mem_append.1 hp with hp | hp
      · exact hw.fits p hp
      · rw [List.mem_singleton.1 hp]
        exact hfits
  unfold GraphFrame.save
  rw [hL.here]
  refine .ask hL hw.stands fun v hv => ?_
  obtain ⟨hdone, hturns⟩ := hL.archives.save v.storage c hv.shows.view.1
  have hput : (L.held v.storage c.thread).put c = L.kept saved ++ [(s.step, c)] := by
    rw [hthread, hv.held]
    exact History.put_of_lt fun p hp => hahead p (mem_of_mem_kept hp)
  rw [hput] at hturns
  have hafter : L.Stands (L.kept saved ++ [(s.step, c)]) ((Call.save L.store c).answer host v).2 :=
    hv.answer hturns
  refine ⟨⟨fun _ => hv.held, ?_⟩, ?_⟩
  · rintro _ _ ⟨⟩ _
    refine ⟨rfl, hfits, hahead, ?_⟩
    rw [hL.archives.load _ _ hturns.sound, ← hthread, hturns.here]
    exact congrArg _ (History.latest?_append _ c)
  have hanswer : ((Call.save L.store c).answer host v).1 = Except.ok () := hdone
  rw [hnoted, hanswer]
  dsimp only
  split
  · next hall =>
    refine tells_pure (hkeeps ?_) ⟨rfl, rfl⟩
    unfold kept at hafter ⊢
    rw [hall] at hafter ⊢
    exact hafter
  · next keep hkeep =>
    have hkept (h : History) : L.kept h = h.retain (max keep 1) := by
      unfold kept
      rw [hkeep]
    rw [hkept] at hafter
    refine .ask hL hafter fun v hv => ?_
    obtain ⟨hdone, hturns⟩ := hL.archives.prune v.storage L.thread (max keep 1) hv.shows.view.1
      (Nat.le_max_right _ _)
    rw [hv.held, History.retain_append_retain _ _ (Nat.le_max_right _ _), ← hkept] at hturns
    refine ⟨⟨fun hprunes => absurd rfl hprunes, ?_⟩, ?_⟩
    · rintro _ _ ⟨⟩
    · refine tells_pure (hkeeps (hv.answer hturns)) ⟨?_, rfl⟩
      show ((L.store.prune _ _ _).1.map _).mapError _ = _
      rw [hdone]
      rfl

end Rules

end Ledger

end WorkflowGraph
