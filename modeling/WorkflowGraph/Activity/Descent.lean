import WorkflowGraph.Activity.Basic

/-!
# Activities come to an end

An activity may become one of its children in a step, and every chain of such steps ends.
The same holds of a list of activities, one of which is replaced in a step by any number of
activities that it may become: so tasks that start further tasks come to an end too.
-/

set_option autoImplicit false

namespace WorkflowGraph.Activity

/-- An activity with a result of any type. -/
abbrev Tree : Type 1 := (α : Type) × Activity α

/-- Whether the first activity is what the second one may become in one step, or a task that
it starts in one. -/
def Child (q p : Tree) : Prop :=
  match p with
  | ⟨_, .done _⟩ => False
  | ⟨α, .wait _ rest⟩ => q = ⟨α, rest⟩
  | ⟨α, .ask _ rest⟩ => ∃ a, q = ⟨α, rest a⟩
  | ⟨α, .start _ _ task rest⟩ => (∃ i, q = ⟨NodeRun, task i⟩) ∨ ∃ g, q = ⟨α, rest g⟩
  | ⟨α, .join _ _ rest⟩ => ∃ runs spent, q = ⟨α, rest runs spent⟩

theorem acc_child {α : Type} (p : Activity α) : Acc Child ⟨α, p⟩ := by
  induction p with
  | done a => exact ⟨_, fun _ h => h.elim⟩
  | wait n p ih => exact ⟨_, fun _ h => by obtain rfl := h; exact ih⟩
  | ask c rest ih => exact ⟨_, fun _ h => by obtain ⟨a, rfl⟩ := h; exact ih a⟩
  | start limit count task rest ihTask ihRest =>
    refine ⟨_, fun _ h => ?_⟩
    rcases h with ⟨i, rfl⟩ | ⟨g, rfl⟩
    · exact ihTask i
    · exact ihRest g
  | join g span rest ih => exact ⟨_, fun _ h => by obtain ⟨r, n, rfl⟩ := h; exact ih r n⟩

/-- What an activity may become in one or more steps. -/
abbrev Below : Tree → Tree → Prop := Relation.TransGen Child

theorem acc_below (p : Tree) : Acc Below p := (acc_child p.2).transGen

theorem Below.of_child {q p : Tree} (h : Child q p) : Below q p := .single h

theorem Below.trans {r q p : Tree} (h : Below r q) (h' : Below q p) : Below r p := by
  induction h' with
  | single h' => exact .tail h h'
  | tail _ h' ih => exact .tail ih h'

/-- One activity of a list has been replaced by activities below it. -/
inductive Replaced : List Tree → List Tree → Prop where
  | intro (front : List Tree) (p : Tree) (qs back : List Tree) (h : ∀ q ∈ qs, Below q p) :
    Replaced (front ++ qs ++ back) (front ++ p :: back)

/-- A replacement in two lists that follow one another takes place in one of them. -/
theorem Replaced.of_append {xs ys zs : List Tree} (h : Replaced zs (xs ++ ys)) :
    (∃ xs', Replaced xs' xs ∧ zs = xs' ++ ys) ∨ ∃ ys', Replaced ys' ys ∧ zs = xs ++ ys' := by
  generalize hw : xs ++ ys = w at h
  obtain ⟨front, p, qs, back, hq⟩ := h
  rcases List.append_eq_append_iff.1 hw with ⟨as, rfl, rfl⟩ | ⟨bs, hxs, hback⟩
  · exact .inr ⟨as ++ qs ++ back, .intro as p qs back hq, by simp⟩
  · subst hxs
    cases bs with
    | nil =>
      simp only [List.nil_append] at hback
      exact .inr ⟨qs ++ back, by rw [← hback]; exact .intro [] p qs back hq, by simp⟩
    | cons b bs =>
      simp only [List.cons_append, List.cons.injEq] at hback
      obtain ⟨rfl, rfl⟩ := hback
      exact .inl ⟨front ++ qs ++ bs, .intro front p qs bs hq, by simp⟩

theorem acc_append {xs ys : List Tree} (hx : Acc Replaced xs) (hy : Acc Replaced ys) :
    Acc Replaced (xs ++ ys) := by
  induction hx generalizing ys with
  | intro xs _ ihx =>
    induction hy with
    | intro ys hy ihy =>
      refine ⟨_, fun zs h => ?_⟩
      rcases h.of_append with ⟨xs', hx', rfl⟩ | ⟨ys', hy', rfl⟩
      · exact ihx xs' hx' ⟨_, hy⟩
      · exact ihy ys' hy'

theorem acc_nil : Acc Replaced [] := by
  refine ⟨_, fun zs h => ?_⟩
  generalize hw : ([] : List Tree) = w at h
  obtain ⟨front, p, qs, back, _⟩ := h
  simp at hw

theorem acc_of_forall {qs : List Tree} (h : ∀ q ∈ qs, Acc Replaced [q]) : Acc Replaced qs := by
  induction qs with
  | nil => exact acc_nil
  | cons q rest ih =>
    exact (List.singleton_append ▸ acc_append (h q (by simp)) (ih fun r hr => h r (by simp [hr])) :)

theorem acc_singleton (p : Tree) : Acc Replaced [p] := by
  induction acc_below p with
  | intro p _ ih =>
    refine ⟨_, fun zs h => ?_⟩
    generalize hw : [p] = w at h
    obtain ⟨front, p', qs, back, hq⟩ := h
    cases front with
    | nil =>
      simp only [List.nil_append, List.cons.injEq] at hw
      obtain ⟨rfl, rfl⟩ := hw
      simpa using acc_of_forall fun q h => ih q (hq q h)
    | cons f front => simp at hw

/-- Every chain of replacements ends. -/
theorem acc_replaced (ps : List Tree) : Acc Replaced ps :=
  acc_of_forall fun p _ => acc_singleton p

/-- Lists of activities, ordered by the replacements in them. -/
structure Trees where
  items : List Tree

instance : WellFoundedRelation Trees where
  rel a b := Replaced a.items b.items
  wf := InvImage.wf Trees.items ⟨acc_replaced⟩

end WorkflowGraph.Activity
