import WorkflowGraph.Proofs.Activity.Client
import WorkflowGraph.Proofs.Activity.InTurn

/-!
# Clients that share a storage

Two clients do what they do in one storage, one step of either at a time (`Clients.turn`). If they
keep to different threads, neither notices the other one. Whatever the first one does depends on
nothing but what its own threads hold, and these are not changed by the second one. So after any
number of turns the first client is where it would be by itself (`Clients.first_after`), and when it
has come to its end, this is what its activity comes to when it is carried out alone
(`Clients.first_ends`).
-/

set_option autoImplicit false

namespace WorkflowGraph

/-! ## Clients that keep to some calls -/

section Keeps

variable {σ α : Type} {C : Call → Prop}

/-- Whether strands make only calls of some kind. -/
def Crew.Keep (C : Call → Prop) (strands : List Strand) : Prop :=
  ∀ t ∈ Crew.trees strands, t.2.Obeys C fun _ => True

theorem Crew.keep_append {front back : List Strand} :
    Crew.Keep C (front ++ back) ↔ Crew.Keep C front ∧ Crew.Keep C back := by
  simp only [Crew.Keep, Crew.trees_append, List.mem_append, or_imp, forall_and]

theorem Crew.keep_cons {s : Strand} {rest : List Strand} :
    Crew.Keep C (s :: rest) ↔ (s.rest.Obeys C fun _ => True) ∧ Crew.Keep C rest := by
  simp only [Crew.Keep, Crew.trees_cons, List.forall_mem_cons]

theorem Crew.keep_nil : Crew.Keep C [] := by
  rintro t ⟨⟩

theorem Crew.keep_start {crew : Crew} (hcrew : Crew.Keep C crew.strands) (clock limit : Nat)
    {count : Nat} {task : Fin count → Activity NodeRun}
    (htask : ∀ i, (task i).Obeys C fun _ => True) :
    Crew.Keep C (crew.start clock limit count task).2.strands := by
  refine Crew.keep_append.2 ⟨hcrew, fun t ht => ?_⟩
  obtain ⟨s, hs, rfl⟩ := List.mem_map.1 ht
  obtain ⟨i, rfl⟩ := List.mem_ofFn.1 hs
  exact htask i

/-- Whether all that is waited for is followed by calls of some kind. -/
def Wait.Keeps (C : Call → Prop) (wait : Wait α) : Prop :=
  ∀ clock crew, (wait.next clock crew).Obeys C fun _ => True

/-- Whether a client makes only calls of some kind in what it is doing. -/
def Doing.Keeps (C : Call → Prop) : Doing α → Prop
  | .going _ p => p.Obeys C fun _ => True
  | .waiting wait => wait.Keeps C
  | .turn front _ back p wait =>
    Crew.Keep C front ∧ Crew.Keep C back ∧ (p.Obeys C fun _ => True) ∧ wait.Keeps C

def Move.Keeps (C : Call → Prop) : Move α → Prop
  | .onward _ crew doing => Crew.Keep C crew.strands ∧ doing.Keeps C
  | .ask c next => C c ∧ ∀ a, (next a).Keeps C

variable {clock : Nat} {crew : Crew}

theorem Activity.Obeys.move {p : Activity α} (hp : p.Obeys C fun _ => True)
    (hcrew : Crew.Keep C crew.strands) (rested : Bool) : (p.move clock crew rested).Keeps C := by
  unfold Activity.move
  split
  · exact ⟨hcrew, trivial⟩
  · split
    · exact ⟨hcrew, hp⟩
    · exact ⟨hcrew, fun _ _ => hp⟩
  · split
    · exact ⟨hcrew, fun _ _ => hp⟩
    · exact ⟨hp.1, hp.2⟩
  · exact ⟨Crew.keep_start hcrew _ _ hp.1, hp.2 _⟩
  · split
    · exact ⟨hcrew, hp _ _⟩
    · exact ⟨hcrew, fun _ _ => hp _ _⟩

namespace Wait

variable {wait : Wait α} {front back : List Strand} {s : Strand}

theorem Keeps.take (hwait : wait.Keeps C) (hstrands : Crew.Keep C (front ++ s :: back))
    (hcrew : Crew.Keep C crew.strands) : (wait.take clock crew front s back).Keeps C := by
  obtain ⟨hfront, hrest⟩ := Crew.keep_append.1 hstrands
  obtain ⟨hs, hback⟩ := Crew.keep_cons.1 hrest
  have hanswered (runs : Option (List NodeRun)) (spent : Nat) :
      (s.rest.answered runs spent).Obeys C fun _ => True := by
    unfold Activity.answered
    split
    · next hjoin =>
      rw [hjoin] at hs
      exact hs runs spent
    · exact hs
  have henter {crew : Crew} {p : Activity NodeRun} (hp : p.Obeys C fun _ => True) :
      (Move.onward clock { crew with strands := [] } (.turn front s back p wait)).Keeps C :=
    ⟨Crew.keep_nil, hfront, hback, hp, hwait⟩
  have hstay (stage : Stage) : Crew.Keep C (front ++ [{ s with stage }] ++ back) := by
    rw [List.append_assoc]
    exact Crew.keep_append.2 ⟨hfront, Crew.keep_cons.2 ⟨hs, hback⟩⟩
  unfold Wait.take
  dsimp only
  split
  · exact henter hs
  · split
    · exact henter hs
    · exact ⟨hstay _, hwait⟩
  · exact ⟨hcrew, hwait⟩
  · split
    · exact henter (hanswered _ _)
    · split
      · exact henter (hanswered _ _)
      · exact ⟨hstay _, hwait⟩

theorem Keeps.turn (hwait : wait.Keeps C) (hfront : Crew.Keep C front) (hback : Crew.Keep C back)
    (hcrew : Crew.Keep C crew.strands) {p : Activity NodeRun} (hp : p.Obeys C fun _ => True) :
    (wait.turn clock crew front s back p).Keeps C := by
  have hpause (stage : Stage) {rest : Activity NodeRun} (hrest : rest.Obeys C fun _ => True) :
      Crew.Keep C (Wait.pause crew front s back stage rest).strands :=
    Crew.keep_append.2 ⟨Crew.keep_append.2 ⟨hfront, Crew.keep_append.2
      ⟨hcrew, Crew.keep_cons.2 ⟨hrest, Crew.keep_nil⟩⟩⟩, hback⟩
  unfold Wait.turn
  split
  · refine ⟨?_, hwait⟩
    unfold Crew.Keep
    rw [Crew.trees_finish]
    exact Crew.keep_append.2 ⟨Crew.keep_append.2 ⟨hfront, hcrew⟩, hback⟩
  · split
    · exact ⟨hcrew, hfront, hback, hp, hwait⟩
    · exact ⟨hpause _ hp, hwait⟩
  · exact ⟨hp.1, fun a => ⟨hfront, hback, hp.2 a, hwait⟩⟩
  · exact ⟨Crew.keep_start hcrew _ _ hp.1, hfront, hback, hp.2 _, hwait⟩
  · split
    · exact ⟨hcrew, hfront, hback, hp _ _, hwait⟩
    · split
      · exact ⟨hcrew, hfront, hback, hp _ _, hwait⟩
      · exact ⟨hpause _ hp, hwait⟩

theorem Keeps.move (hwait : wait.Keeps C) (hcrew : Crew.Keep C crew.strands) :
    (wait.move clock crew).Keeps C := by
  unfold Wait.move
  split
  · next hpick =>
    refine hwait.take ?_ hcrew
    rw [← (Crew.pick?_eq_some hpick).1]
    exact hcrew
  · split
    · exact ⟨hcrew, hwait _ _⟩
    · split
      · split
        · exact ⟨hcrew, hwait _ _⟩
        · exact ⟨hcrew, hwait⟩
      · exact ⟨hcrew, hwait _ _⟩

end Wait

theorem Doing.Keeps.move {doing : Doing α} (hdoing : doing.Keeps C)
    (hcrew : Crew.Keep C crew.strands) : (doing.move clock crew).Keeps C := by
  cases doing with
  | going rested p => exact Activity.Obeys.move hdoing hcrew rested
  | waiting wait => exact Wait.Keeps.move hdoing hcrew
  | turn front s back p wait =>
    obtain ⟨hfront, hback, hp, hwait⟩ := hdoing
    exact hwait.turn hfront hback hcrew hp

/-- Whether a client and its tasks make only calls of some kind. -/
structure Client.Keeps (C : Call → Prop) (c : Client σ α) : Prop where
  crew : Crew.Keep C c.world.crew.strands
  doing : c.doing.Keeps C

end Keeps

/-! ## What a step depends on -/

namespace Client

variable {σ α : Type}

/-- The client with another storage. -/
def sharing (c : Client σ α) (s : Storage) : Client σ α :=
  { c with world := { c.world with storage := s } }

variable {P : Store → Prop} {Sound : Storage → Prop} {held : Storage → String → History}
  {O : String → Prop} (harchives : ∀ store, P store → store.Archives Sound held) (host : Host σ)
  {c : Client σ α}

include harchives

/-- A client that keeps to some threads changes no others. -/
theorem Keeps.step (hc : c.Keeps (Call.On fun store thread => P store ∧ O thread))
    (hsound : Sound c.world.storage) :
    (c.step host).Keeps (Call.On fun store thread => P store ∧ O thread) ∧
      Sound (c.step host).world.storage ∧
      ∀ thread, ¬ O thread →
        held (c.step host).world.storage thread = held c.world.storage thread := by
  have hmove : (c.doing.move c.world.clock c.world.crew).Keeps
      (Call.On fun store thread => P store ∧ O thread) := hc.doing.move hc.crew
  unfold Client.step
  cases hm : c.doing.move c.world.clock c.world.crew with
  | onward clock crew doing =>
    rw [hm] at hmove
    exact ⟨⟨hmove.1, hmove.2⟩, hsound, fun _ _ => rfl⟩
  | ask call next =>
    rw [hm] at hmove
    have hanswer := hmove.1.answer_local harchives host c.world
    refine ⟨⟨?_, hmove.2 _⟩, hanswer.sound _ hsound, hanswer.frame _ hsound⟩
    rw [call.crew_answer]
    exact hc.crew

/-- A client that keeps to some threads notices no others. -/
theorem Keeps.step_sharing (hc : c.Keeps (Call.On fun store thread => P store ∧ O thread))
    (hsound : Sound c.world.storage) {s : Storage} (hs : Sound s)
    (halike : c.world.storage.Alike held O s) :
    ∃ t, (c.sharing s).step host = (c.step host).sharing t ∧ Sound t ∧
      (c.step host).world.storage.Alike held O t := by
  have hmove : (c.doing.move c.world.clock c.world.crew).Keeps
      (Call.On fun store thread => P store ∧ O thread) := hc.doing.move hc.crew
  unfold Client.step sharing
  cases hm : c.doing.move c.world.clock c.world.crew with
  | onward clock crew doing => exact ⟨s, rfl, hs, halike⟩
  | ask call next =>
    rw [hm] at hmove
    have hanswer := hmove.1.answer_local harchives host c.world
    obtain ⟨hsame, hmemory⟩ := Prod.mk.inj (hanswer.result _ s hsound hs halike)
    refine ⟨(call.answer host { c.world with storage := s }).2.storage, ?_, hanswer.sound s hs,
      hanswer.storage _ s hsound hs halike⟩
    dsimp only at hsame hmemory ⊢
    -- The answer comes with a world in which nothing but the storage is different.
    have hclock := (call.clock_answer host { c.world with storage := s }).trans
      (call.clock_answer host c.world).symm
    have hcrew := (call.crew_answer host { c.world with storage := s }).trans
      (call.crew_answer host c.world).symm
    generalize call.answer host { c.world with storage := s } = r at hsame hmemory hclock hcrew
    obtain ⟨answer, clock, memory, storage, crew⟩ := r
    cases hsame
    cases hmemory
    cases hclock
    cases hcrew
    rfl

end Client

/-! ## Taking turns -/

inductive Side where
  | first
  | second
  deriving DecidableEq

/-- Two clients that share a storage, which stands in the worlds of both. -/
structure Clients (σ τ α β : Type) : Type 1 where
  first : Client σ α
  second : Client τ β

namespace Clients

variable {σ τ α β : Type}

/-- One of the clients makes a step, and the other one finds the storage as it is then. -/
def turn (host : Host σ) (other : Host τ) (cs : Clients σ τ α β) : Side → Clients σ τ α β
  | .first =>
    let c := cs.first.step host
    ⟨c, cs.second.sharing c.world.storage⟩
  | .second =>
    let c := cs.second.step other
    ⟨cs.first.sharing c.world.storage, c⟩

/-- Some number of turns, one after the other. -/
def after (host : Host σ) (other : Host τ) (cs : Clients σ τ α β) (turns : List Side) :
    Clients σ τ α β :=
  turns.foldl (turn host other) cs

/-- Whether two clients keep to stores of one kind, and each of them to its own threads. -/
structure Keep (P : Store → Prop) (Sound : Storage → Prop) (O U : String → Prop)
    (cs : Clients σ τ α β) : Prop where
  first : cs.first.Keeps (Call.On fun store thread => P store ∧ O thread)
  second : cs.second.Keeps (Call.On fun store thread => P store ∧ U thread)
  sound : Sound cs.first.world.storage
  shared : cs.second.world.storage = cs.first.world.storage

variable {P : Store → Prop} {Sound : Storage → Prop} {held : Storage → String → History}
  {O U : String → Prop} (harchives : ∀ store, P store → store.Archives Sound held)
  {cs : Clients σ τ α β}

include harchives

omit harchives in
theorem Keep.sound_second (h : cs.Keep P Sound O U) : Sound cs.second.world.storage := by
  rw [h.shared]
  exact h.sound

theorem Keep.turn (h : cs.Keep P Sound O U) (host : Host σ) (other : Host τ) (side : Side) :
    (cs.turn host other side).Keep P Sound O U := by
  cases side with
  | first =>
    obtain ⟨hkeeps, hsound, _⟩ := h.first.step harchives host h.sound
    exact ⟨hkeeps, ⟨h.second.crew, h.second.doing⟩, hsound, rfl⟩
  | second =>
    obtain ⟨hkeeps, hsound, _⟩ := h.second.step harchives other h.sound_second
    exact ⟨⟨h.first.crew, h.first.doing⟩, hkeeps, hsound, rfl⟩

/-- **The first client is where it would be by itself.** By induction on the turns: its own ones it
makes by itself as well, and of the others it notices nothing. -/
theorem Keep.first_after (h : cs.Keep P Sound O U) (hapart : ∀ thread, O thread → ¬ U thread)
    (host : Host σ) (other : Host τ) (turns : List Side) {s : Storage} (hs : Sound s)
    (halike : cs.first.world.storage.Alike held O s) :
    ∃ t, (Client.step host)^[turns.count .first] (cs.first.sharing s) =
        (cs.after host other turns).first.sharing t ∧
      (cs.after host other turns).first.world.storage.Alike held O t := by
  induction turns generalizing cs s with
  | nil => exact ⟨s, rfl, halike⟩
  | cons side rest ih =>
    have hturn := h.turn harchives host other side
    cases side with
    | first =>
      obtain ⟨t, hstep, ht, hlike⟩ := h.first.step_sharing harchives host h.sound hs halike
      rw [List.count_cons_self, Function.iterate_succ_apply, hstep]
      exact ih hturn ht hlike
    | second =>
      obtain ⟨_, _, hframe⟩ := h.second.step harchives other h.sound_second
      have hlike : (cs.turn host other .second).first.world.storage.Alike held O s := by
        intro thread hthread
        rw [← halike thread hthread, ← h.shared]
        exact hframe thread (hapart thread hthread)
      rw [List.count_cons_of_ne (by decide)]
      exact ih hturn hs hlike

/-- **The first client comes to what it comes to alone.** After some number of turns of its own it
has come to an end, whatever the second one does, and its end and its threads are then those that
its activity leaves when it is carried out by itself. -/
theorem Keep.first_ends (h : cs.Keep P Sound O U) (hapart : ∀ thread, O thread → ¬ U thread)
    (host : Host σ) (other : Host τ) {w : World σ} {p : Activity α}
    (hfirst : cs.first = .starting w p) :
    ∃ n, ∀ turns : List Side,
      (n ≤ turns.count .first → (cs.after host other turns).first.Ends (p.run host w).1) ∧
      ∀ a, (cs.after host other turns).first.Ends a → a = (p.run host w).1 ∧
        (cs.after host other turns).first.world.storage.Alike held O (p.run host w).2.storage := by
  obtain ⟨n, hn⟩ := Client.comes_run host w p
  refine ⟨n, fun turns => ?_⟩
  obtain ⟨t, hafter, hlike⟩ :=
    h.first_after harchives hapart host other turns h.sound fun _ _ => rfl
  have hstart : cs.first.sharing cs.first.world.storage = .starting w p := hfirst
  rw [hstart] at hafter
  have hover : ((Client.step host)^[n] (.starting w p)).Ends (p.run host w).1 := by
    rw [hn]
    exact ⟨false, rfl⟩
  refine ⟨fun hle => ?_, fun a ha => ?_⟩
  · obtain ⟨k, hk⟩ := Nat.exists_eq_add_of_le' hle
    rw [hk, Function.iterate_add_apply, hover.iterate] at hafter
    rw [hafter] at hover
    exact hover
  · have hcount : ((Client.step host)^[turns.count .first] (.starting w p)).Ends a := by
      rw [hafter]
      exact ha
    obtain ⟨hsame, hclients⟩ := hcount.eq hover
    refine ⟨hsame, ?_⟩
    rw [hafter, hn] at hclients
    have hstorage : t = (p.run host w).2.storage := congrArg (fun c => c.world.storage) hclients
    rw [← hstorage]
    exact hlike

end Clients

end WorkflowGraph
