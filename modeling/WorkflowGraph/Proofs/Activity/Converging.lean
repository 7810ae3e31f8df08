import WorkflowGraph.Proofs.Activity.Confluence
import WorkflowGraph.Proofs.Activity.Echo
import WorkflowGraph.Proofs.Activity.Scheduled

/-!
# Idle worlds side by side

Two worlds in which nothing is under way differ in their past, in their storages and in the memories
of their hosts. What is grounded in threads for which both storages hold the same comes to the same
in both of them (`Storage.Same`), as long as the threads that it forgets are kept in memory, or as
it starts no tasks that could go on in between (`Pairing.same_of_grounded`). Wherever they are kept,
it does so if it waits for all tasks that it starts (`Pairing.same_of_patient`), for then it comes
to what it comes to with its tasks in turn.
-/

set_option autoImplicit false

namespace WorkflowGraph

open Activity

variable {σ τ H α : Type} {R : Store → Prop} {F : Prop} {known : String → Prop}
  {post : α → (String → Prop) → Prop}

/-- The past of a world in which nothing is under way. -/
def World.past (w : World σ) : Past := ⟨w.clock, w.crew.groups, w.crew.count⟩

namespace Pairing

/-- A pairing of a host with itself. -/
def alone (host : Host σ) (stores : Store → Prop) (Sound : Storage → Prop)
    (held : Storage → String → H)
    (keeps : ∀ store, stores store → store.KeepsAnew (· ≠ "") Sound held) : Pairing σ σ H where
  host
  other := host
  like m n := m = n
  stores
  Sound
  held
  follows := by
    refine ⟨?_, ?_⟩
    · rintro m _ e r rfl
      exact ⟨rfl, rfl⟩
    · rintro m _ name arguments rfl
      exact ⟨rfl, rfl⟩
  keeps

/-- A pairing of the first host with itself. -/
def own (E : Pairing σ τ H) : Pairing σ σ H := alone E.host E.stores E.Sound E.held E.keeps

variable {E : Pairing σ τ H}

/-- A world in which nothing is under way is its own past and a beginning. -/
theorem Twinned.echoes {m : σ} {s : Storage} {v : World τ} (h : E.Twinned (.initial m s) v)
    (hidle : v.crew.strands = []) : E.Echoes R F v.past (.initial m s) v := by
  refine ⟨h, rfl, ?_, fun _ hs => nomatch hs⟩
  show v.crew = ⟨[], v.crew.groups ++ [], v.crew.count⟩
  rw [List.append_nil, ← hidle]

theorem CameTo.same {past : Past} {w : World σ} {v : World τ} {r : α × World σ} {r' : α × World τ}
    (h : E.CameTo R F past post w v r r') :
    Storage.Same E.Sound E.held post w.storage v.storage (World.outcome r) (World.outcome r') :=
  ⟨h.result, h.leads.echoes.sound, h.leads.echoes.sound', h.leads.storage, h.holds⟩

section Idle

variable {p : Activity α} {w : World σ} {v : World τ} (hw : w.crew.strands = [])
  (hv : v.crew.strands = []) (h : E.Twinned w v) (hp : p.Grounded E.stores R F known post)
  (hknown : ∀ u, known u → E.Agreed w.storage v.storage u)
  (hmono : ∀ a (k l : String → Prop), (∀ u, k u → l u) → post a k → post a l)

include hw hv h hp hknown hmono

/-- **What is grounded comes to the same in idle worlds**, for it comes to what it comes to at the
beginning. -/
theorem same_of_grounded (hquick : ∀ store, R store → store = .memory ∨ ¬ F) :
    Storage.Same E.Sound E.held post w.storage v.storage (World.outcome (p.run E.host w))
      (World.outcome (p.run E.other v)) := by
  have hbegin : E.Twinned (.initial w.memory w.storage) v := ⟨h.like, h.sound, h.sound'⟩
  have hself : E.own.Twinned (.initial w.memory w.storage) w := ⟨rfl, h.sound, h.sound⟩
  have hthere := ((hbegin.echoes hv).run hp hquick (.inr rfl) hknown hmono).same
  have hhere := ((hself.echoes hw).run (E := E.own) (hp.weaken fun _ _ _ => trivial) hquick
    (.inr rfl) (fun _ _ => rfl) fun _ _ _ _ _ => trivial).same
  exact hthere.of_left hhere

end Idle

section Patient

variable {E : Pairing Unit σ H} {p : Activity α} {O : String → Prop} {any : α → Prop}
  (hpatient : p.Patient) (hconfined : p.Confined E.stores O any) (hnamed : ∀ u, O u → u ≠ "")
  (hwhole : p.Grounded E.stores (fun _ => False) True O fun _ _ => True)

include hpatient hconfined hnamed hwhole

/-- In an idle world, what is patient and confined comes to what it comes to in turn. -/
theorem same_inTurn {v : World σ} (hv : v.crew.strands = []) (hlike : E.like () v.memory)
    (hsound : E.Sound v.storage) :
    Storage.Same E.Sound E.held (fun _ _ => True) v.storage v.storage
      (p.inTurn E.host none v.storage).outcome (World.outcome (p.run E.other v)) := by
  have hbegin : E.Twinned (.initial () v.storage) v := ⟨hlike, hsound, hsound⟩
  obtain ⟨hresult, hfirst, hsecond, hstorage, -⟩ := ((hbegin.echoes hv).run hwhole
    (by rintro _ ⟨⟩) (.inr rfl) (fun _ _ => rfl) fun _ _ _ _ _ => trivial).same
  obtain ⟨⟨_, _, hschedule⟩, _⟩ := hpatient.run E.host (w := .initial () v.storage) rfl
  obtain ⟨_, hend⟩ := hconfined.every_schedule_apart
    (fun store hstore => (E.keeps store hstore).toKeepsApart) hnamed hsound hschedule
  obtain ⟨hturn, _, hheld⟩ := hend _ rfl
  refine ⟨hresult.trans hturn, ?_, hsecond, fun u => .inl ?_, trivial⟩
  · exact (hconfined.inTurn_apart (fun store hstore => (E.keeps store hstore).toKeepsApart) hnamed
      E.host).sound _ hsound
  · exact (hstorage.agreed rfl).trans (hheld u)

/-- **What is grounded and patient comes to the same in idle worlds**, wherever its threads are
kept: it comes to what it comes to in turn. -/
theorem same_of_patient {w : World Unit} {v : World σ} (hw : w.crew.strands = [])
    (hv : v.crew.strands = []) (h : E.Twinned w v) (hp : p.Grounded E.stores R F known post)
    (hknown : ∀ u, known u → E.Agreed w.storage v.storage u)
    (hmono : ∀ a (k l : String → Prop), (∀ u, k u → l u) → post a k → post a l) :
    Storage.Same E.Sound E.held post w.storage v.storage (World.outcome (p.run E.host w))
      (World.outcome (p.run E.other v)) := by
  have hhere := same_inTurn (E := E.own) hpatient hconfined hnamed hwhole hw rfl h.sound
  have hthere := same_inTurn hpatient hconfined hnamed hwhole hv h.like h.sound'
  have hturn := inTurn (E := E.own) hp (fun _ _ => rfl) h.sound h.sound' hknown hmono
  exact (hturn.of_left hhere).of_right hthere

end Patient

end Pairing

end WorkflowGraph
