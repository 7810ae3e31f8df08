import Mathlib.Data.List.Dedup
import Mathlib.Data.List.Perm.Subperm
import Mathlib.Logic.Relation
import WorkflowGraph.Transition.Table

/-!
# The rounds of a search find what can be reached

`Reach.expand` only adds successors, so everything it finds is reached by steps of the graph.
A round that adds nothing leaves a list that is closed under successors, and a round that adds
something makes a list without repetition longer. With a bound on the number of nodes, the
search therefore ends closed: `Reach.closure` finds exactly the nodes that a node reaches
(`mem_closure_iff`).
-/

set_option autoImplicit false

namespace WorkflowGraph.Reach

variable {next : String → List String}

/-- One step of the graph with the given successors. -/
def Step (next : String → List String) (a b : String) : Prop := b ∈ next a

/-- A node reaches another one by any number of steps. -/
abbrev Reaches (next : String → List String) : String → String → Prop :=
  Relation.ReflTransGen (Step next)

/-- A node leads to another one by one or more steps. -/
abbrev Leads (next : String → List String) : String → String → Prop :=
  Relation.TransGen (Step next)

/-! ## The nodes that a round adds -/

theorem of_mem_fresh {seen nodes : List String} {n : String} (h : n ∈ fresh seen nodes) :
    n ∈ nodes ∧ n ∉ seen := by
  induction nodes generalizing seen with
  | nil => simp [fresh] at h
  | cons a rest ih =>
    unfold fresh at h
    split at h
    · obtain ⟨hr, hs⟩ := ih h
      exact ⟨List.mem_cons_of_mem a hr, hs⟩
    · next ha =>
      rcases List.mem_cons.1 h with rfl | h
      · exact ⟨List.mem_cons_self, by simpa using ha⟩
      · obtain ⟨hr, hs⟩ := ih h
        exact ⟨List.mem_cons_of_mem a hr, fun hn => hs (List.mem_cons_of_mem a hn)⟩

theorem mem_seen_or_fresh {seen nodes : List String} {n : String} (h : n ∈ nodes) :
    n ∈ seen ∨ n ∈ fresh seen nodes := by
  induction nodes generalizing seen with
  | nil => simp at h
  | cons a rest ih =>
    unfold fresh
    split
    · next ha =>
      rcases List.mem_cons.1 h with rfl | h
      · exact .inl (by simpa using ha)
      · exact ih h
    · rcases List.mem_cons.1 h with rfl | h
      · exact .inr List.mem_cons_self
      · rcases @ih (a :: seen) h with hs | hf
        · rcases List.mem_cons.1 hs with rfl | hs
          · exact .inr List.mem_cons_self
          · exact .inl hs
        · exact .inr (List.mem_cons_of_mem a hf)

theorem nodup_fresh (seen nodes : List String) : (fresh seen nodes).Nodup := by
  induction nodes generalizing seen with
  | nil => exact List.nodup_nil
  | cons a rest ih =>
    unfold fresh
    split
    · exact ih seen
    · refine List.nodup_cons.2 ⟨fun h => ?_, ih (a :: seen)⟩
      exact (of_mem_fresh h).2 List.mem_cons_self

/-! ## Rounds -/

/-- What holds of the nodes seen and of the successors of the frontier, and passes on to
successors, holds of everything that the rounds find. -/
theorem forall_mem_expand {P : String → Prop} (hstep : ∀ a, P a → ∀ b ∈ next a, P b)
    (fuel : Nat) {frontier seen : List String} (hseen : ∀ n ∈ seen, P n)
    (hfrontier : ∀ a ∈ frontier, ∀ b ∈ next a, P b) :
    ∀ n ∈ expand next fuel frontier seen, P n := by
  induction fuel generalizing frontier seen with
  | zero => exact hseen
  | succ fuel ih =>
    have hnew : ∀ n ∈ fresh seen (frontier.flatMap next), P n := by
      intro n hn
      obtain ⟨a, ha, hb⟩ := List.mem_flatMap.1 (of_mem_fresh hn).1
      exact hfrontier a ha n hb
    unfold expand
    dsimp only
    split
    · exact hseen
    · apply ih
      · intro n hn
        rcases List.mem_append.1 hn with hn | hn
        · exact hseen n hn
        · exact hnew n hn
      · intro a ha
        exact hstep a (hnew a ha)

theorem mem_expand_of_mem {fuel : Nat} {frontier seen : List String} {n : String}
    (h : n ∈ seen) : n ∈ expand next fuel frontier seen := by
  induction fuel generalizing frontier seen with
  | zero => exact h
  | succ fuel ih =>
    unfold expand
    dsimp only
    split
    · exact h
    · exact ih (List.mem_append_left _ h)

/-- Of the nodes seen, only the ones of the frontier may still have successors that have not
been seen. -/
def Explored (next : String → List String) (frontier seen : List String) : Prop :=
  ∀ n ∈ seen, n ∈ frontier ∨ ∀ m ∈ next n, m ∈ seen

theorem Explored.round {frontier seen : List String} (h : Explored next frontier seen) :
    Explored next (fresh seen (frontier.flatMap next))
      (seen ++ fresh seen (frontier.flatMap next)) := by
  intro n hn
  rcases List.mem_append.1 hn with hn | hn
  · refine .inr fun m hm => ?_
    rcases h n hn with hf | hs
    · exact List.mem_append.2 (mem_seen_or_fresh (List.mem_flatMap.2 ⟨n, hf, hm⟩))
    · exact List.mem_append_left _ (hs m hm)
  · exact .inl hn

/-- With more rounds to go than there are nodes left to see, the rounds end with a list that
is closed under successors. The lists stay without repetition within the nodes of the graph,
so that every round but the last one uses one of those up. -/
theorem closed_expand {nodes : List String} (hnodes : ∀ n, ∀ m ∈ next n, m ∈ nodes)
    (fuel : Nat) {frontier seen : List String} (hseen : seen ⊆ nodes) (hnodup : seen.Nodup)
    (hfuel : nodes.length < fuel + seen.length) (hexp : Explored next frontier seen) :
    ∀ n ∈ expand next fuel frontier seen, ∀ m ∈ next n, m ∈ expand next fuel frontier seen := by
  induction fuel generalizing frontier seen with
  | zero =>
    have := (List.subperm_of_subset hnodup hseen).length_le
    omega
  | succ fuel ih =>
    have hround := hexp.round
    unfold expand
    dsimp only
    split
    · next hempty =>
      -- Nothing is new, so the frontier has been explored too.
      rw [List.isEmpty_iff.1 hempty, List.append_nil] at hround
      intro n hn
      rcases hround n hn with hf | hs
      · simp at hf
      · exact hs
    · next hempty =>
      have hpos : 0 < (fresh seen (frontier.flatMap next)).length := by
        rw [List.length_pos_iff]
        simpa using hempty
      apply ih _ _ _ hround
      · intro n hn
        rcases List.mem_append.1 hn with hn | hn
        · exact hseen hn
        · obtain ⟨a, _, hb⟩ := List.mem_flatMap.1 (of_mem_fresh hn).1
          exact hnodes a n hb
      · rw [List.nodup_append]
        refine ⟨hnodup, nodup_fresh _ _, ?_⟩
        rintro a ha b hb rfl
        exact (of_mem_fresh hb).2 ha
      · rw [List.length_append]
        omega

/-! ## Searches -/

theorem reaches_of_mem_closure {bound : Nat} {start n : String}
    (h : n ∈ closure next bound start) : Reaches next start n := by
  refine forall_mem_expand (P := Reaches next start) ?_ bound ?_ ?_ n h
  · intro a ha b hb
    exact ha.tail hb
  · intro a ha
    rw [List.mem_singleton.1 ha]
  · intro a ha b hb
    rw [List.mem_singleton.1 ha] at hb
    exact .single hb

/-- A search finds exactly the nodes that its start reaches. -/
theorem mem_closure_iff {bound : Nat} {nodes : List String} {start n : String}
    (hnodes : ∀ n, ∀ m ∈ next n, m ∈ nodes) (hbound : nodes.length < bound) :
    n ∈ closure next bound start ↔ Reaches next start n := by
  have hwithin : ∀ n, ∀ m ∈ next n, m ∈ start :: nodes :=
    fun n m hm => List.mem_cons_of_mem _ (hnodes n m hm)
  have hclosed : ∀ n ∈ closure next bound start, ∀ m ∈ next n, m ∈ closure next bound start := by
    apply closed_expand hwithin
    · simp
    · exact List.nodup_singleton start
    · simpa using hbound
    · simp [Explored]
  have hstart : start ∈ closure next bound start :=
    mem_expand_of_mem List.mem_cons_self
  refine ⟨reaches_of_mem_closure, fun h => ?_⟩
  induction h with
  | refl => exact hstart
  | tail _ h ih => exact hclosed _ ih _ h

end WorkflowGraph.Reach
