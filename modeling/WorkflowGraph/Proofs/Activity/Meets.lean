import WorkflowGraph.Proofs.Activity.Obeys

/-!
# A logic for activities and the world around them

A regime says what an activity may ask for in a state of the world, which answers it then gets
and which state follows. The state is only what matters of the world, such as the latest
checkpoints of some threads. An activity meets a postcondition under a regime when every call is
allowed where it is made and every result comes with a state that satisfies the postcondition.
Tasks that it starts go on at any later time, so all their calls must be such that they change
nothing of the state. An activity can be cut off wherever time passes, so the invariant has to
hold there.
-/

set_option autoImplicit false

namespace WorkflowGraph.Activity

variable {α β M : Type}

/-- What may be asked for in a state, which answers come with which state after them, and what
tasks may ask for at any time. -/
structure Regime (M : Type) where
  allows : M → Call → Prop
  answers : M → (c : Call) → c.Answer → M → Prop
  background : Call → Prop

/-- Whether an activity that starts in a state meets a postcondition, and the invariant wherever
time passes. -/
def Meets (R : Regime M) (inv : M → Prop) {α : Type} (post : α → M → Prop) :
    Activity α → M → Prop
  | .done a, m => post a m
  | .wait _ p, m => inv m ∧ p.Meets R inv post m
  | .ask c rest, m => R.allows m c ∧ ∀ a k, R.answers m c a k → (rest a).Meets R inv post k
  | .start _ _ task rest, m =>
    (∀ i, (task i).Obeys R.background fun _ => True) ∧ ∀ g, (rest g).Meets R inv post m
  | .join _ _ rest, m => inv m ∧ ∀ runs spent, (rest runs spent).Meets R inv post m

variable {R : Regime M} {inv : M → Prop}

/-! ## Laws -/

theorem Meets.mono {post other : α → M → Prop} {weak : M → Prop} {p : Activity α} {m : M}
    (h : p.Meets R inv post m) (hinv : ∀ k, inv k → weak k)
    (hpost : ∀ a k, post a k → other a k) : p.Meets R weak other m := by
  induction p generalizing m with
  | done a => exact hpost a m h
  | wait _ p ih => exact ⟨hinv m h.1, ih h.2 hpost⟩
  | ask c rest ih => exact ⟨h.1, fun a k hk => ih a (h.2 a k hk) hpost⟩
  | start _ _ task rest _ ih => exact ⟨h.1, fun g => ih g (h.2 g) hpost⟩
  | join _ _ rest ih => exact ⟨hinv m h.1, fun runs spent => ih runs spent (h.2 runs spent) hpost⟩

theorem meets_bind {between : α → M → Prop} {post : β → M → Prop} {p : Activity α}
    {next : α → Activity β} {m : M} (h : p.Meets R inv between m)
    (hnext : ∀ a k, between a k → (next a).Meets R inv post k) :
    (p >>= next).Meets R inv post m := by
  show (p.bind next).Meets R inv post m
  induction p generalizing m with
  | done a => exact hnext a m h
  | wait _ p ih => exact ⟨h.1, ih h.2 hnext⟩
  | ask c rest ih => exact ⟨h.1, fun a k hk => ih a (h.2 a k hk) hnext⟩
  | start _ _ task rest _ ih => exact ⟨h.1, fun g => ih g (h.2 g) hnext⟩
  | join _ _ rest ih => exact ⟨h.1, fun runs spent => ih runs spent (h.2 runs spent) hnext⟩

theorem meets_perform {c : Call} {post : c.Answer → M → Prop} {m : M} (h : R.allows m c)
    (hpost : ∀ a k, R.answers m c a k → post a k) : (perform c).Meets R inv post m :=
  ⟨h, hpost⟩

theorem meets_sleep {m : M} (span : Nat) (h : inv m) :
    (sleep span).Meets R inv (fun _ k => k = m) m := by
  unfold sleep
  split
  · exact rfl
  · exact ⟨h, rfl⟩

theorem Obeys.meets {P : Call → Prop} {post : α → Prop} {p : Activity α} (keep : M → Prop)
    (h : p.Obeys P post)
    (hcalls : ∀ m c, keep m → P c → R.allows m c ∧ ∀ a k, R.answers m c a k → keep k)
    (htasks : ∀ c, P c → R.background c) {m : M} (hm : keep m) :
    p.Meets R keep (fun a k => post a ∧ keep k) m := by
  induction p generalizing m with
  | done a => exact ⟨h, hm⟩
  | wait _ p ih => exact ⟨hm, ih h hm⟩
  | ask c rest ih =>
    obtain ⟨hallowed, hkeep⟩ := hcalls m c hm h.1
    exact ⟨hallowed, fun a k hk => ih a (h.2 a) (hkeep a k hk)⟩
  | start _ _ task rest _ ih =>
    exact ⟨fun i => (h.1 i).mono htasks fun _ hr => hr, fun g => ih g (h.2 g) hm⟩
  | join _ _ rest ih => exact ⟨hm, fun runs spent => ih runs spent (h runs spent) hm⟩

theorem Meets.and_obeys {P : Call → Prop} {post : α → M → Prop} {other : α → Prop}
    {p : Activity α} {m : M} (h : p.Meets R inv post m) (h' : p.Obeys P other) :
    p.Meets R inv (fun a k => post a k ∧ other a) m := by
  induction p generalizing m with
  | done a => exact ⟨h, h'⟩
  | wait _ p ih => exact ⟨h.1, ih h.2 h'⟩
  | ask c rest ih => exact ⟨h.1, fun a k hk => ih a (h.2 a k hk) (h'.2 a)⟩
  | start _ _ task rest _ ih => exact ⟨h.1, fun g => ih g (h.2 g) (h'.2 g)⟩
  | join _ _ rest ih =>
    exact ⟨h.1, fun runs spent => ih runs spent (h.2 runs spent) (h' runs spent)⟩

/-- What no call of an activity changes is not changed by the activity: the frame rule, for a
relation between the state at the start and the states after it. -/
theorem Meets.frame {P : Call → Prop} {post : α → M → Prop} {other : α → Prop}
    (still : M → M → Prop) {p : Activity α} {m : M} (h : p.Meets R inv post m)
    (h' : p.Obeys P other) (hrefl : still m m)
    (hcalls : ∀ n c a k, still m n → P c → R.answers n c a k → still m k) :
    p.Meets R (fun k => inv k ∧ still m k) (fun a k => post a k ∧ still m k) m := by
  -- The state at the start stays fixed while the activity goes on in later ones.
  suffices hall : ∀ n, still m n → p.Meets R inv post n →
      p.Meets R (fun k => inv k ∧ still m k) (fun a k => post a k ∧ still m k) n from
    hall m hrefl h
  clear h
  induction p with
  | done a => exact fun n hn h => ⟨h, hn⟩
  | wait _ p ih => exact fun n hn h => ⟨⟨h.1, hn⟩, ih h' n hn h.2⟩
  | ask c rest ih =>
    intro n hn h
    exact ⟨h.1, fun a k hk => ih a (h'.2 a) k (hcalls n c a k hn h'.1 hk) (h.2 a k hk)⟩
  | start _ _ task rest _ ih =>
    exact fun n hn h => ⟨h.1, fun g => ih g (h'.2 g) n hn (h.2 g)⟩
  | join _ _ rest ih =>
    intro n hn h
    exact ⟨⟨h.1, hn⟩, fun runs spent => ih runs spent (h' runs spent) n hn (h.2 runs spent)⟩

/-- A regime that allows nothing but some calls. -/
def Regime.only (R : Regime M) (P : Call → Prop) : Regime M :=
  { R with allows m c := R.allows m c ∧ P c }

theorem Meets.only {P : Call → Prop} {post : α → M → Prop} {other : α → Prop} {p : Activity α}
    {m : M} (h : p.Meets R inv post m) (h' : p.Obeys P other) :
    p.Meets (R.only P) inv post m := by
  induction p generalizing m with
  | done a => exact h
  | wait _ p ih => exact ⟨h.1, ih h.2 h'⟩
  | ask c rest ih => exact ⟨⟨h.1, h'.1⟩, fun a k hk => ih a (h.2 a k hk) (h'.2 a)⟩
  | start _ _ task rest _ ih => exact ⟨h.1, fun g => ih g (h.2 g) (h'.2 g)⟩
  | join _ _ rest ih =>
    exact ⟨h.1, fun runs spent => ih runs spent (h.2 runs spent) (h' runs spent)⟩

/-- What an activity that may be cut off comes to: a result with the postcondition, or nothing
with the invariant. -/
def OrCut (inv : M → Prop) (post : α → M → Prop) {τ : Type} : Option (α × τ) → M → Prop
  | some x, m => post x.1 m
  | none, m => inv m

/-- An activity that is cut off after a span of time has met the invariant where it is cut. -/
theorem Meets.within {post : α → M → Prop} {p : Activity α} {m : M} (h : p.Meets R inv post m)
    (budget : Nat) : (p.within budget).Meets R inv (OrCut inv post) m := by
  induction p generalizing m budget with
  | done a => exact h
  | wait n p ih =>
    unfold Activity.within
    split
    · exact ⟨h.1, ih h.2 _⟩
    · exact ⟨h.1, h.1⟩
  | ask c rest ih => exact ⟨h.1, fun a k hk => ih a (h.2 a k hk) budget⟩
  | start _ _ task rest _ ih => exact ⟨h.1, fun g => ih g (h.2 g) budget⟩
  | join g span rest ih =>
    unfold Activity.within
    split
    · exact ⟨h.1, fun runs spent => ih runs spent (h.2 runs spent) _⟩
    · refine ⟨h.1, fun runs spent => ?_⟩
      cases runs with
      | some runs => exact ih (some runs) spent (h.2 (some runs) spent) _
      | none => exact h.1

theorem Meets.withinOption {post : α → M → Prop} {p : Activity α} {m : M}
    (h : p.Meets R inv post m) (budget : Option Nat) :
    (p.withinOption budget).Meets R inv (OrCut inv post) m := by
  cases budget with
  | none => exact meets_bind h fun _ _ ha => ha
  | some n =>
    apply meets_bind (h.within n)
    rintro (_ | x) k hk
    · exact hk
    · exact hk

/-! ## Obeying as meeting -/

/-- The regime in which calls are allowed or not, and any answer may come. -/
def Regime.ofCalls (P : Call → Prop) : Regime Unit where
  allows _ c := P c
  answers _ _ _ _ := True
  background := P

theorem obeys_iff_meets {P : Call → Prop} {post : α → Prop} {p : Activity α} :
    p.Obeys P post ↔ p.Meets (.ofCalls P) (fun _ => True) (fun a _ => post a) () := by
  induction p with
  | done a => exact Iff.rfl
  | wait _ p ih => exact ih.trans (and_iff_right trivial).symm
  | ask c rest ih =>
    refine and_congr_right fun _ => ⟨fun h a _ _ => (ih a).1 (h a), fun h a => ?_⟩
    exact (ih a).2 (h a () trivial)
  | start _ _ task rest _ ih => exact and_congr_right fun _ => forall_congr' fun g => ih g
  | join _ _ rest ih =>
    refine Iff.trans ?_ (and_iff_right trivial).symm
    exact forall_congr' fun runs => forall_congr' fun spent => ih runs spent

end WorkflowGraph.Activity
