import WorkflowGraph.Proofs.Graph.Discipline

/-!
# Activities that know what they ask for

An activity does the same in two storages as long as it never looks at what they differ in. It is
grounded in some threads if it asks its stores for nothing but these threads and those that it has
forgotten before (`Activity.Grounded`): whatever was kept for a thread, it is the same once it has
been forgotten. Right after this the thread is loaded, and has no checkpoint then.

What is known of a thread is never lost again, so that all that is known at the start is known in
the end (`Activity.Grounded.known_still`). What it comes to in two storages that agree on the known
threads is shown in `WorkflowGraph.Proofs.Activity.Pairing` for its tasks in turn, and in
`WorkflowGraph.Proofs.Activity.Echo` for worlds.
-/

set_option autoImplicit false

namespace WorkflowGraph.Activity

/-- Whether an activity asks its stores only for threads that are known to it, and comes to results
with a postcondition on what is known then. A thread that was not known before is known once it has
been forgotten and loaded again, where the store lets nobody in between. Tasks are started only where
this is permitted. -/
inductive Grounded (P R : Store → Prop) (F : Prop) :
    {α : Type} → (String → Prop) → (α → (String → Prop) → Prop) → Activity α → Prop where
  | done {α : Type} {known : String → Prop} {post : α → (String → Prop) → Prop} {a : α}
    (h : post a known) : Grounded P R F known post (.done a)
  | wait {α : Type} {known : String → Prop} {post : α → (String → Prop) → Prop} {span : Nat}
    {rest : Activity α} (h : Grounded P R F known post rest) :
    Grounded P R F known post (.wait span rest)
  | ask {α : Type} {known : String → Prop} {post : α → (String → Prop) → Prop} {c : Call}
    {rest : c.Answer → Activity α}
    (hcall : c.On fun store thread => P store ∧ thread ≠ "" ∧ known thread)
    (hrest : ∀ a, Grounded P R F known post (rest a)) : Grounded P R F known post (.ask c rest)
  | renew {α : Type} {known : String → Prop} {post : α → (String → Prop) → Prop} {store : Store}
    {thread : String} {rest : Except StoreError Unit → Activity α}
    {further : Except StoreError (Option Checkpoint) → Activity α} (hstore : P store ∧ R store)
    (hthread : thread ≠ "") (hload : rest (.ok ()) = .ask (.load store thread) further)
    (h : Grounded P R F (fun u => u = thread ∨ known u) post (further (.ok none))) :
    Grounded P R F known post (.ask (.delete store thread) rest)
  | fork {α : Type} {known : String → Prop} {post : α → (String → Prop) → Prop}
    {limit count : Nat} {task : Fin count → Activity NodeRun} {span : Option Nat}
    {next : Option (List NodeRun) → Nat → Activity α} (hfork : F)
    (htask : ∀ i, Grounded P R F known (fun _ _ => True) (task i))
    (hnext : ∀ runs spent, Grounded P R F known post (next runs spent)) :
    Grounded P R F known post (.start limit count task fun group => .join group span next)

namespace Grounded

variable {P R : Store → Prop} {F : Prop} {α β : Type} {known : String → Prop}
  {post : α → (String → Prop) → Prop} {p : Activity α}

/-! ## Laws -/

/-- Who knows more does not ask for more. -/
theorem mono {more : String → Prop} {other : α → (String → Prop) → Prop}
    (h : p.Grounded P R F known post) (hknown : ∀ u, known u → more u)
    (hpost : ∀ a (k l : String → Prop), (∀ u, k u → l u) → post a k → other a l) :
    p.Grounded P R F more other := by
  induction h generalizing more with
  | done h => exact .done (hpost _ _ _ hknown h)
  | wait _ ih => exact .wait (ih hknown hpost)
  | ask hcall _ ih =>
    exact .ask (hcall.mono fun _ _ h => ⟨h.1, h.2.1, hknown _ h.2.2⟩) fun a => ih a hknown hpost
  | renew hstore hthread hload _ ih =>
    exact .renew hstore hthread hload (ih (fun u hu => hu.imp_right (hknown u)) hpost)
  | fork hfork _ _ ihtask ihnext =>
    exact .fork hfork (fun i => ihtask i hknown fun _ _ _ _ _ => trivial) fun runs spent =>
      ihnext runs spent hknown hpost

theorem weaken {other : α → (String → Prop) → Prop} (h : p.Grounded P R F known post)
    (hpost : ∀ a l, post a l → other a l) : p.Grounded P R F known other := by
  induction h with
  | done h => exact .done (hpost _ _ h)
  | wait _ ih => exact .wait (ih hpost)
  | ask hcall _ ih => exact .ask hcall fun a => ih a hpost
  | renew hstore hthread hload _ ih => exact .renew hstore hthread hload (ih hpost)
  | fork hfork htask _ _ ihnext => exact .fork hfork htask fun runs spent => ihnext runs spent hpost

/-- What is known at the start is known in the end. -/
theorem known_still (h : p.Grounded P R F known post) :
    p.Grounded P R F known fun a l => post a l ∧ ∀ u, known u → l u := by
  induction h with
  | done h => exact .done ⟨h, fun _ hu => hu⟩
  | wait _ ih => exact .wait ih
  | ask hcall _ ih => exact .ask hcall ih
  | renew hstore hthread hload _ ih =>
    exact .renew hstore hthread hload (ih.weaken fun _ _ h => ⟨h.1, fun u hu => h.2 u (.inr hu)⟩)
  | fork hfork htask _ _ ihnext => exact .fork hfork htask ihnext

theorem bind {later : β → (String → Prop) → Prop} {next : α → Activity β}
    (h : p.Grounded P R F known post)
    (hnext : ∀ a l, (∀ u, known u → l u) → post a l → (next a).Grounded P R F l later) :
    (p >>= next).Grounded P R F known later := by
  show (p.bind next).Grounded P R F known later
  induction h with
  | done h => exact hnext _ _ (fun _ hu => hu) h
  | wait _ ih => exact .wait (ih hnext)
  | ask hcall _ ih => exact .ask hcall fun a => ih a hnext
  | renew hstore hthread hload _ ih =>
    refine .renew hstore hthread (congrArg (Activity.bind · next) hload) (ih ?_)
    exact fun a l hl => hnext a l fun u hu => hl u (.inr hu)
  | fork hfork htask _ _ ihnext => exact .fork hfork htask fun runs spent => ihnext runs spent hnext

/-- What is cut off after a span of time has not asked for anything else. -/
theorem within (h : p.Grounded P R F known post) (budget : Nat) :
    (p.within budget).Grounded P R F known fun r l => ∀ x, r = some x → post x.1 l := by
  induction h generalizing budget with
  | done h =>
    refine .done ?_
    rintro _ ⟨⟩
    exact h
  | wait _ ih =>
    unfold Activity.within
    split
    · exact .wait (ih _)
    · refine .wait (.done ?_)
      rintro _ ⟨⟩
  | ask hcall _ ih => exact .ask hcall fun a => ih a budget
  | renew hstore hthread hload _ ih =>
    exact .renew hstore hthread (congrArg (Activity.within budget) hload) (ih budget)
  | @fork α known post limit count task span next hfork htask _ _ ihnext =>
    show (Activity.start limit count task fun group =>
      (Activity.join group span next).within budget).Grounded P R F known fun r l =>
        ∀ x, r = some x → post x.1 l
    unfold Activity.within
    split
    · exact .fork hfork htask fun runs spent => ihnext runs spent _
    · refine .fork hfork htask fun runs spent => ?_
      cases runs with
      | some runs => exact ihnext (some runs) spent _
      | none =>
        refine .done ?_
        rintro _ ⟨⟩

theorem withinOption (h : p.Grounded P R F known post) (budget : Option Nat) :
    (p.withinOption budget).Grounded P R F known fun r l => ∀ x, r = some x → post x.1 l := by
  cases budget with
  | none =>
    refine h.bind fun a l _ ha => .done ?_
    rintro _ ⟨⟩
    exact ha
  | some n =>
    refine (h.within n).bind fun r l _ hr => .done ?_
    intro x hx
    obtain ⟨y, rfl, rfl⟩ := Option.map_eq_some_iff.1 hx
    exact hr y rfl

theorem all (hfork : F) (limit : Nat) {count : Nat} {tasks : Fin count → Activity NodeRun}
    (htasks : ∀ i, (tasks i).Grounded P R F known fun _ _ => True) :
    (Activity.all limit (List.ofFn tasks)).Grounded P R F known fun _ _ => True := by
  rw [all_ofFn]
  exact .fork hfork htasks fun _ _ => .done trivial

/-- Whether an activity is grounded in some threads is a judgement, as long as these have a name. -/
def judgement (P R : Store → Prop) (F : Prop) : Judgement P where
  Holds O _ post p := (∀ u, O u → u ≠ "") → p.Grounded P R F O fun a _ => post a
  done h _ := .done h
  wait h hnamed := .wait (h hnamed)
  mono h hthreads hpost hnamed :=
    (h fun u hu => hnamed u (hthreads u hu)).mono hthreads fun a _ _ _ ha => hpost a ha
  bind h hnext hnamed := (h hnamed).bind fun a _ hl ha =>
    ((hnext a ha) hnamed).mono hl fun _ _ _ _ hb => hb
  perform hc hnamed :=
    .ask (hc.mono fun _ thread h => ⟨h.1, hnamed thread h.2, h.2⟩) fun _ => .done trivial

theorem cuts_judgement (P R : Store → Prop) (F : Prop) : (judgement P R F).Cuts :=
  fun _ _ _ _ budget h hnamed => (h hnamed).within budget

/-- It is a discipline where tasks may be started at all. -/
def discipline (P R : Store → Prop) : Discipline P fun r => ∀ e ∈ r.errors, True where
  toJudgement := judgement P R True
  all limit _ _ Os hinside _ htasks hnamed := by
    refine (Grounded.all trivial limit fun i => ?_).weaken fun _ _ _ _ _ _ _ => trivial
    refine (htasks i fun u hu => hnamed u (hinside i u hu)).mono (hinside i) ?_
    exact fun _ _ _ _ _ => trivial

end Grounded

end WorkflowGraph.Activity
