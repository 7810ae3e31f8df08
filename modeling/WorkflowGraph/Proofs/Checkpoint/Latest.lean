import Mathlib.Logic.Function.Basic
import WorkflowGraph.Proofs.Activity.Adequacy
import WorkflowGraph.Proofs.Checkpoint.Memory
import WorkflowGraph.Proofs.Graph.Calls

/-!
# The latest checkpoints of some threads

What matters of a working store are the latest checkpoints of the threads that are watched. Every
call changes at most one of them, in the way that `Call.effect` says, and tasks that stay away
from the watched threads change none (`Regime.seenThrough_keeping`).
-/

set_option autoImplicit false

namespace WorkflowGraph

open Activity

/-- The latest checkpoint of every thread. -/
abbrev Latest : Type := String → Option Checkpoint

/-- The latest checkpoints after a call. -/
def Call.effect (m : Latest) : Call → Latest
  | .save _ c => Function.update m c.thread (some c)
  | .delete _ thread => Function.update m thread none
  | _ => m

/-- Whether an answer is one of a store that works. -/
def Call.Succeeds (m : Latest) : (c : Call) → c.Answer → Prop
  | .load _ thread, a => a = .ok (m thread)
  | .save _ _, a => a = .ok ()
  | .delete _ _, a => a = .ok ()
  | .prune _ _ _, a => ∃ gone, a = .ok gone
  | .task _ _, _ => True
  | .tool _ _, _ => True

/-- Whether what a call saves does not fall behind the latest checkpoint of its thread. -/
def Call.Advances (m : Latest) : Call → Prop
  | .save _ c => ∀ old, m c.thread = some old → old.step ≤ c.step
  | _ => True

/-- Whether a call keeps to the store, and away from the threads that are watched. -/
def Call.Elsewhere (store : Store) (watched : String → Prop) (c : Call) : Prop :=
  c.On fun other thread => other = store ∧ ¬ watched thread

/-- Whether a call keeps to the store and to the threads that are watched. -/
def Call.Watched (store : Store) (watched : String → Prop) (c : Call) : Prop :=
  c.On fun other thread => other = store ∧ watched thread

/-- The regime of a working store, of which some threads are watched. -/
def Activity.Regime.keeping (store : Store) (watched : String → Prop) : Regime Latest where
  allows m c := c.Elsewhere store watched ∨ c.Watched store watched ∧ c.Advances m
  answers m c a k := c.Elsewhere store watched ∧ k = m ∨
    c.Watched store watched ∧ c.Succeeds m a ∧ k = c.effect m
  background c := c.Elsewhere store watched

theorem Call.Watched.succeeds {store : Store} {watched : String → Prop} {m k : Latest} {c : Call}
    {a : c.Answer} (hc : c.Watched store watched)
    (h : (Regime.keeping store watched).answers m c a k) : c.Succeeds m a ∧ k = c.effect m := by
  rcases h with ⟨helsewhere, rfl⟩ | ⟨_, h⟩
  · cases c with
    | task e r => exact ⟨trivial, rfl⟩
    | tool name arguments => exact ⟨trivial, rfl⟩
    | load other thread => exact absurd hc.2 helsewhere.2
    | save other c => exact absurd hc.2 helsewhere.2
    | delete other thread => exact absurd hc.2 helsewhere.2
    | prune other thread keep => exact absurd hc.1.2 helsewhere.1.2
  · exact h

theorem Call.Elsewhere.unchanged {store : Store} {watched : String → Prop} {m k : Latest}
    {c : Call} {a : c.Answer} (hc : c.Elsewhere store watched)
    (h : (Regime.keeping store watched).answers m c a k) : k = m := by
  rcases h with ⟨_, rfl⟩ | ⟨hwatched, _, rfl⟩
  · rfl
  · cases c with
    | save other c => exact absurd hwatched.2 hc.2
    | delete other thread => exact absurd hwatched.2 hc.2
    | task | tool | load | prune => rfl

theorem Call.Watched.meets {store : Store} {watched : String → Prop} {inv : Latest → Prop}
    {m : Latest} {c : Call} (hc : c.Watched store watched) (hadvances : c.Advances m) :
    (perform c).Meets (.keeping store watched) inv
      (fun a k => c.Succeeds m a ∧ k = c.effect m) m := by
  apply meets_perform
  · exact Or.inr ⟨hc, hadvances⟩
  · exact fun a k hk => hc.succeeds hk

/-- Whether a storage is sound and has the latest checkpoints given on the watched threads. -/
structure Store.Keeps (store : Store) (Sound : Storage → Prop) (watched : String → Prop)
    (s : Storage) (m : Latest) : Prop where
  sound : Sound s
  latest : ∀ thread, watched thread → store.latest? s thread = m thread

variable {store : Store} {Sound : Storage → Prop} {watched : String → Prop}

theorem Store.Leaves.keeps {s after : Storage} {m : Latest} {thread : String}
    {latest : Option Checkpoint} (h : store.Leaves Sound s thread latest after)
    (hs : store.Keeps Sound watched s m) :
    store.Keeps Sound watched after (Function.update m thread latest) := by
  refine ⟨h.sound, fun other hother => ?_⟩
  by_cases hsame : other = thread
  · subst hsame
    rw [Function.update_self]
    exact h.here
  · rw [Function.update_of_ne hsame, h.elsewhere other hsame]
    exact hs.latest other hother

theorem Store.Leaves.keeps_of_not_watched {s after : Storage} {m : Latest} {thread : String}
    {latest : Option Checkpoint} (h : store.Leaves Sound s thread latest after)
    (hs : store.Keeps Sound watched s m) (hthread : ¬ watched thread) :
    store.Keeps Sound watched after m := by
  refine ⟨h.sound, fun other hother => ?_⟩
  have hne : other ≠ thread := by
    rintro rfl
    exact hthread hother
  rw [h.elsewhere other hne]
  exact hs.latest other hother

theorem Call.Elsewhere.keeps {σ : Type} (hworks : store.Works Sound) (h : Host σ) (w : World σ)
    {m : Latest} {c : Call} (hview : store.Keeps Sound watched w.storage m)
    (hc : c.Elsewhere store watched) :
    store.Keeps Sound watched (c.answer h w).2.storage m := by
  cases c with
  | task e r => exact hview
  | tool name arguments => exact hview
  | load other thread => exact hview
  | save other c =>
    obtain ⟨rfl, hwatched⟩ := hc
    obtain ⟨_, hleaves⟩ := hworks.saveElsewhere w.storage c hview.sound
    exact hleaves.keeps_of_not_watched hview hwatched
  | delete other thread =>
    obtain ⟨rfl, hwatched⟩ := hc
    exact (hworks.delete w.storage thread hview.sound).2.keeps_of_not_watched hview hwatched
  | prune other thread keep =>
    obtain ⟨⟨rfl, hwatched⟩, hkeep⟩ := hc
    have hleaves := (hworks.prune w.storage thread keep hview.sound hkeep).2
    exact hleaves.keeps_of_not_watched hview hwatched

/-- Calls on the watched threads are answered as they should be, where nothing is saved that falls
behind. -/
theorem Call.Watched.keeps {σ : Type} (hworks : store.Works Sound) (h : Host σ) (w : World σ)
    {m : Latest} {c : Call} (hview : store.Keeps Sound watched w.storage m)
    (hc : c.Watched store watched) (hadvances : c.Advances m) :
    c.Succeeds m (c.answer h w).1 ∧
      store.Keeps Sound watched (c.answer h w).2.storage (c.effect m) := by
  cases c with
  | task e r => exact ⟨trivial, hview⟩
  | tool name arguments => exact ⟨trivial, hview⟩
  | load other thread =>
    obtain ⟨rfl, hwatched⟩ := hc
    refine ⟨?_, hview⟩
    show other.load w.storage thread = .ok (m thread)
    rw [hworks.load _ thread hview.sound, hview.latest thread hwatched]
  | save other c =>
    obtain ⟨rfl, hwatched⟩ := hc
    have hsteps : ∀ old, other.latest? w.storage c.thread = some old → old.step ≤ c.step := by
      rw [hview.latest _ hwatched]
      exact hadvances
    obtain ⟨hdone, hleaves⟩ := hworks.save w.storage c hview.sound hsteps
    exact ⟨hdone, hleaves.keeps hview⟩
  | delete other thread =>
    obtain ⟨rfl, hwatched⟩ := hc
    obtain ⟨hdone, hleaves⟩ := hworks.delete w.storage thread hview.sound
    exact ⟨hdone, hleaves.keeps hview⟩
  | prune other thread keep =>
    obtain ⟨⟨rfl, hwatched⟩, hkeep⟩ := hc
    obtain ⟨hdone, hleaves⟩ := hworks.prune w.storage thread keep hview.sound hkeep
    have hkeeps := hleaves.keeps hview
    rw [hview.latest thread hwatched, Function.update_eq_self] at hkeeps
    exact ⟨hdone, hkeeps⟩

/-- **A working store answers as its regime says**, and calls that stay away from the watched
threads are not noticed. -/
theorem Activity.Regime.seenThrough_keeping (hworks : store.Works Sound) :
    (Regime.keeping store watched).SeenThrough (store.Keeps Sound watched) where
  allowed := by
    rintro σ h w m c hview (hc | ⟨hc, hadvances⟩)
    · exact ⟨m, .inl ⟨hc, rfl⟩, hc.keeps hworks h w hview⟩
    · obtain ⟨hsucceeds, hkeeps⟩ := hc.keeps hworks h w hview hadvances
      exact ⟨_, .inr ⟨hc, hsucceeds, rfl⟩, hkeeps⟩
  unnoticed := fun h w _ _ hview hc => Call.Elsewhere.keeps hworks h w hview hc

end WorkflowGraph
