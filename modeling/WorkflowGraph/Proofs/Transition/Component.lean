import Mathlib.Algebra.BigOperators.Group.Finset.Basic
import Mathlib.Algebra.GroupWithZero.Nat
import Mathlib.Algebra.Order.BigOperators.Group.Finset
import Mathlib.Data.List.Sort
import WorkflowGraph.Proofs.Transition.Reach
import WorkflowGraph.Transition.Component

/-!
# One search finds the strongly connected components

The stack of a search falls into segments, one for each node under way: the node itself and,
above it, nodes that were left without closing a component. All nodes of a segment lie on a
common cycle with the node that is under way, since each of them reaches a lower place of the
stack and from every place of the stack the innermost node is reached (`Stacked.reaches_top`).
A node that reaches no lower number than its own therefore has its whole component above itself
(`Sound.close`). Every step keeps this (`Inv.step`), and every step looks at a successor or
leaves a node, so that a search with enough steps ends with no node under way (`run_spec`).
-/

set_option autoImplicit false

namespace WorkflowGraph.Search

open Reach (Step Leads Reaches)

variable {next : String → List String} {s t : Search}

/-! ## Numbers -/

theorem found_enter {a m : String} :
    (s.enter next a).found m = true ↔ a = m ∨ s.found m = true := by
  unfold found Dict.has enter
  rw [Dict.get?_put]
  by_cases h : a = m
  · simp [h]
  · simp [h]

theorem number_enter (a m : String) :
    (s.enter next a).number m = if a = m then s.count else s.number m := by
  unfold number enter
  rw [Dict.get?_put]
  split <;> rfl

theorem low_enter (a m : String) :
    (s.enter next a).low m = if a = m then s.count else s.low m := by
  unfold low enter
  rw [Dict.get?_put]
  split <;> rfl

theorem low_lower (a m : String) (n : Nat) :
    (s.lower a n).low m = if a = m then min (s.low a) n else s.low m := by
  unfold low lower
  rw [Dict.get?_put]
  split <;> rfl

/-! ## What has been seen -/

/-- The nodes whose components are closed. -/
def closed (s : Search) : List String := s.components.flatten

/-- A successor has been seen when it has been found and either belongs to a closed component
or has a number that is not below the given one. -/
def Seen (s : Search) (k : Nat) (m : String) : Prop :=
  s.found m = true ∧ (m ∈ s.closed ∨ k ≤ s.number m)

theorem Seen.mono {k l : Nat} {m : String} (h : s.Seen k m) (hle : l ≤ k) : s.Seen l m :=
  ⟨h.1, h.2.imp_right hle.trans⟩

/-- What stays as it is while a search goes on. -/
structure Onward (s t : Search) : Prop where
  found : ∀ m, s.found m = true → t.found m = true
  number : ∀ m, s.found m = true → t.number m = s.number m
  closed : ∀ m ∈ s.closed, m ∈ t.closed

theorem Seen.onward {k : Nat} {m : String} (h : s.Seen k m) (hst : Onward s t) : t.Seen k m := by
  refine ⟨hst.found m h.1, h.2.imp (hst.closed m) fun hle => ?_⟩
  rw [hst.number m h.1]
  exact hle

theorem onward_lower (a : String) (n : Nat) : Onward s (s.lower a n) where
  found _ hm := hm
  number _ _ := rfl
  closed _ hm := hm

theorem onward_enter {a : String} (ha : s.found a ≠ true) : Onward s (s.enter next a) where
  found m hm := found_enter.2 (.inr hm)
  number m hm := by
    rw [number_enter, if_neg]
    rintro rfl
    exact ha hm
  closed _ hm := hm

/-! ## The segments of the stack -/

/-- The segment of a node that is under way. The successors of it that have been looked at, and
all successors of the nodes above it, have been seen, and the lowest number that is known is the
one of a place of the stack that the node reaches. -/
structure Segment (next : String → List String) (s : Search) (f : Frame)
    (upper below : List String) : Prop where
  looked : ∃ behind, behind ++ f.ahead = next f.node ∧ ∀ m ∈ behind, s.Seen (s.low f.node) m
  around : ∀ o ∈ upper, Reaches next f.node o ∧ Reaches next o f.node
  seen : ∀ o ∈ upper, ∀ m ∈ next o, s.Seen (s.low f.node) m
  low : ∃ y ∈ f.node :: below, s.number y = s.low f.node ∧ Reaches next f.node y

namespace Segment

variable {f : Frame} {upper below : List String}

/-- A segment stays one while the search goes on, as long as its lowest number is not lowered. -/
theorem onward (h : Segment next s f upper below) (hst : Onward s t)
    (hlow : t.low f.node = s.low f.node) (hfound : ∀ m ∈ f.node :: below, s.found m = true) :
    Segment next t f upper below := by
  obtain ⟨behind, hbehind, hseen⟩ := h.looked
  obtain ⟨y, hy, hnumber, hreach⟩ := h.low
  refine ⟨⟨behind, hbehind, fun m hm => ?_⟩, h.around, fun o ho m hm => ?_, y, hy, ?_, hreach⟩
  · rw [hlow]
    exact (hseen m hm).onward hst
  · rw [hlow]
    exact (h.seen o ho m hm).onward hst
  · rw [hlow, hst.number y (hfound y hy)]
    exact hnumber

/-- A number may be taken into account that is not low or that the node reaches. -/
theorem lower (h : Segment next s f upper below) {n : Nat}
    (hn : s.low f.node ≤ n ∨ ∃ y ∈ f.node :: below, s.number y = n ∧ Reaches next f.node y) :
    Segment next (s.lower f.node n) f upper below := by
  have hlow : (s.lower f.node n).low f.node = min (s.low f.node) n := by
    rw [low_lower, if_pos rfl]
  have hmono {m : String} (hm : s.Seen (s.low f.node) m) :
      (s.lower f.node n).Seen ((s.lower f.node n).low f.node) m := by
    rw [hlow]
    exact hm.mono (Nat.min_le_left _ _)
  obtain ⟨behind, hbehind, hseen⟩ := h.looked
  refine ⟨⟨behind, hbehind, fun m hm => hmono (hseen m hm)⟩, h.around,
    fun o ho m hm => hmono (h.seen o ho m hm), ?_⟩
  rw [hlow]
  by_cases hle : s.low f.node ≤ n
  · rw [Nat.min_eq_left hle]
    exact h.low
  · rw [Nat.min_eq_right (Nat.le_of_not_le hle)]
    exact hn.resolve_left hle

/-- The next successor may be passed once it has been seen. -/
theorem advance {node m : String} {ahead : List String}
    (h : Segment next s ⟨node, m :: ahead⟩ upper below) (hm : s.Seen (s.low node) m) :
    Segment next s ⟨node, ahead⟩ upper below := by
  obtain ⟨behind, hbehind, hseen⟩ := h.looked
  refine ⟨⟨behind ++ [m], ?_, fun k hk => ?_⟩, h.around, h.seen, h.low⟩
  · rw [← hbehind, List.append_assoc]
    rfl
  · rcases List.mem_append.1 hk with hk | hk
    · exact hseen k hk
    · rw [List.mem_singleton.1 hk]
      exact hm

theorem mem_next {node m : String} {ahead : List String}
    (h : Segment next s ⟨node, m :: ahead⟩ upper below) : m ∈ next node := by
  obtain ⟨behind, hbehind, _⟩ := h.looked
  rw [← hbehind]
  exact List.mem_append_right _ List.mem_cons_self

end Segment

/-- The stack is made of the segments of the nodes that are under way, and each of these is a
successor of the one outside of it. -/
inductive Stacked (next : String → List String) (s : Search) : List Frame → List String → Prop
  | nil : Stacked next s [] []
  | cons {f : Frame} {outer : List Frame} {upper below : List String}
      (segment : Segment next s f upper below)
      (link : ∀ g ∈ outer.head?, f.node ∈ next g.node)
      (rest : Stacked next s outer below) :
      Stacked next s (f :: outer) (upper ++ f.node :: below)

namespace Stacked

variable {frames : List Frame} {stack : List String}

theorem node_mem (h : Stacked next s frames stack) {f : Frame} (hf : f ∈ frames) :
    f.node ∈ stack := by
  induction h with
  | nil => simp at hf
  | cons _ _ _ ih =>
    rcases List.mem_cons.1 hf with rfl | hf
    · exact List.mem_append_right _ List.mem_cons_self
    · exact List.mem_append_right _ (List.mem_cons_of_mem _ (ih hf))

/-- From every place of the stack the innermost node that is under way is reached. -/
theorem reaches_top (h : Stacked next s frames stack) {f : Frame} (hf : f ∈ frames.head?)
    {y : String} (hy : y ∈ stack) : Reaches next y f.node := by
  induction h generalizing f with
  | nil => simp at hf
  | @cons g outer upper below segment link rest ih =>
    obtain rfl : g = f := by simpa using hf
    rcases List.mem_append.1 hy with hy | hy
    · exact (segment.around y hy).2
    · rcases List.mem_cons.1 hy with rfl | hy
      · exact .refl
      · cases hhead : outer.head? with
        | none =>
          rw [List.head?_eq_none_iff.1 hhead] at rest
          cases rest
          simp at hy
        | some outerFrame => exact (ih hhead hy).tail (link outerFrame hhead)

/-- The innermost segment and what lies below it. -/
theorem uncons {f : Frame} {outer : List Frame} (h : Stacked next s (f :: outer) stack) :
    ∃ upper below, stack = upper ++ f.node :: below ∧ Segment next s f upper below ∧
      (∀ g ∈ outer.head?, f.node ∈ next g.node) ∧ Stacked next s outer below := by
  cases h with
  | cons segment link rest => exact ⟨_, _, rfl, segment, link, rest⟩

theorem stack_eq_nil (h : Stacked next s [] stack) : stack = [] := by
  cases h
  rfl

theorem onward (h : Stacked next s frames stack) (hst : Onward s t)
    (hlow : ∀ f ∈ frames, t.low f.node = s.low f.node)
    (hfound : ∀ m ∈ stack, s.found m = true) : Stacked next t frames stack := by
  induction h with
  | nil => exact .nil
  | cons segment link rest ih =>
    refine .cons (segment.onward hst (hlow _ List.mem_cons_self) fun m hm => ?_) link (ih ?_ ?_)
    · exact hfound m (List.mem_append_right _ hm)
    · exact fun g hg => hlow g (List.mem_cons_of_mem _ hg)
    · exact fun m hm => hfound m (List.mem_append_right _ (List.mem_cons_of_mem _ hm))

/-- The lowest number of the innermost node is the one of a place of the stack that the node
reaches. -/
theorem low_mem {f : Frame} {outer : List Frame} (h : Stacked next s (f :: outer) stack) :
    ∃ y ∈ stack, s.number y = s.low f.node ∧ Reaches next f.node y := by
  obtain ⟨upper, below, rfl, segment, _, _⟩ := h.uncons
  obtain ⟨y, hy, hnumber, hreach⟩ := segment.low
  exact ⟨y, List.mem_append_right _ hy, hnumber, hreach⟩

theorem advance {node m : String} {ahead : List String} {outer : List Frame}
    (h : Stacked next s (⟨node, m :: ahead⟩ :: outer) stack) (hm : s.Seen (s.low node) m) :
    Stacked next s (⟨node, ahead⟩ :: outer) stack := by
  cases h with
  | cons segment link rest => exact .cons (segment.advance hm) link rest

end Stacked

/-- The numbers fall along a stack from its top. -/
def Falling (s : Search) (stack : List String) : Prop :=
  stack.Pairwise fun a b => s.number b < s.number a

section Falling

variable {f : Frame} {outer : List Frame} {a : String} {upper below stack : List String}

theorem Falling.upper_lt (h : s.Falling (upper ++ a :: below)) {m : String} (hm : m ∈ upper) :
    s.number a < s.number m :=
  (List.pairwise_append.1 h).2.2 m hm a List.mem_cons_self

theorem Falling.lt_below (h : s.Falling (upper ++ a :: below)) {m : String} (hm : m ∈ below) :
    s.number m < s.number a :=
  (List.pairwise_cons.1 (List.pairwise_append.1 h).2.1).1 m hm

theorem Falling.tail (h : s.Falling (upper ++ a :: below)) : s.Falling below :=
  (List.pairwise_cons.1 (List.pairwise_append.1 h).2.1).2

theorem Falling.not_mem_upper (h : s.Falling (upper ++ a :: below)) : a ∉ upper :=
  fun hm => Nat.lt_irrefl _ (h.upper_lt hm)

theorem Falling.not_mem_below (h : s.Falling (upper ++ a :: below)) : a ∉ below :=
  fun hm => Nat.lt_irrefl _ (h.lt_below hm)

theorem Segment.low_le (h : Segment next s f upper below)
    (hfalling : s.Falling (upper ++ f.node :: below)) : s.low f.node ≤ s.number f.node := by
  obtain ⟨y, hy, hnumber, _⟩ := h.low
  rw [← hnumber]
  rcases List.mem_cons.1 hy with rfl | hy
  · exact Nat.le_refl _
  · exact Nat.le_of_lt (hfalling.lt_below hy)

/-- The innermost node takes a number into account that is not low or that it reaches. A place
of its own segment has a number that is not low. -/
theorem Stacked.lower (h : Stacked next s (f :: outer) stack) (hfalling : s.Falling stack)
    (hfound : ∀ m ∈ stack, s.found m = true) {n : Nat}
    (hn : s.low f.node ≤ n ∨ ∃ y ∈ stack, s.number y = n ∧ Reaches next f.node y) :
    Stacked next (s.lower f.node n) (f :: outer) stack := by
  obtain ⟨upper, below, rfl, segment, link, rest⟩ := h.uncons
  refine .cons (segment.lower ?_) link (rest.onward (onward_lower _ _) (fun g hg => ?_) ?_)
  · rcases hn with hn | ⟨y, hy, rfl, hreach⟩
    · exact .inl hn
    · rcases List.mem_append.1 hy with hy | hy
      · exact .inl ((segment.low_le hfalling).trans (Nat.le_of_lt (hfalling.upper_lt hy)))
      · exact .inr ⟨y, hy, rfl, hreach⟩
  · rw [low_lower, if_neg]
    intro heq
    exact hfalling.not_mem_below (heq ▸ rest.node_mem hg)
  · exact fun m hm => hfound m (List.mem_append_right _ (List.mem_cons_of_mem _ hm))

/-- A node that reaches a lower place of the stack is left within the segment of the node
outside of it. -/
theorem Stacked.merge {node : String} {g : Frame}
    (rest : Stacked next s (g :: outer) below) (segment : Segment next s ⟨node, []⟩ upper below)
    (link : node ∈ next g.node) (hfalling : s.Falling (upper ++ node :: below))
    (hfound : ∀ m ∈ below, s.found m = true) (hlow : s.low node ≠ s.number node) :
    Stacked next (s.lower g.node (s.low node)) (g :: outer) (upper ++ node :: below) := by
  obtain ⟨y, hy, hnumber, hreach⟩ := segment.low
  have hy : y ∈ below := by
    rcases List.mem_cons.1 hy with rfl | hy
    · exact absurd hnumber.symm hlow
    · exact hy
  have hto : Reaches next g.node node := .single link
  have hback : Reaches next node g.node := hreach.trans (rest.reaches_top (by simp) hy)
  have hlowered := rest.lower hfalling.tail hfound (.inr ⟨y, hy, hnumber, hto.trans hreach⟩)
  have hseen {m : String} (hm : s.Seen (s.low node) m) :
      (s.lower g.node (s.low node)).Seen ((s.lower g.node (s.low node)).low g.node) m := by
    refine (hm.onward (onward_lower _ _)).mono ?_
    rw [low_lower, if_pos rfl]
    exact Nat.min_le_right _ _
  obtain ⟨upper', below', rfl, segment', link', rest'⟩ := hlowered.uncons
  have hstack : upper ++ node :: (upper' ++ g.node :: below') =
      (upper ++ node :: upper') ++ g.node :: below' := by simp
  rw [hstack]
  refine .cons ⟨segment'.looked, fun o ho => ?_, fun o ho m hm => ?_, segment'.low⟩ link' rest'
  · rcases List.mem_append.1 ho with ho | ho
    · obtain ⟨hfrom, hinto⟩ := segment.around o ho
      exact ⟨hto.trans hfrom, hinto.trans hback⟩
    · rcases List.mem_cons.1 ho with rfl | ho
      · exact ⟨hto, hback⟩
      · exact segment'.around o ho
  · rcases List.mem_append.1 ho with ho | ho
    · exact hseen (segment.seen o ho m hm)
    · rcases List.mem_cons.1 ho with rfl | ho
      · obtain ⟨behind, hbehind, hlooked⟩ := segment.looked
        rw [List.append_nil] at hbehind
        exact hseen (hlooked m (hbehind ▸ hm))
      · exact segment'.seen o ho m hm

end Falling

/-! ## What every step keeps -/

/-- What holds of the nodes that a search has found, apart from those under way: the numbers
fall along the stack, and the closed components are complete and lead nowhere else. -/
structure Sound (next : String → List String) (s : Search) : Prop where
  found : ∀ m, s.found m = true ↔ m ∈ s.stack ∨ m ∈ s.closed
  nodup : (s.stack ++ s.closed).Nodup
  numbered : ∀ m ∈ s.stack, s.number m < s.count
  falling : s.Falling s.stack
  closed : ∀ m ∈ s.closed, ∀ k ∈ next m, k ∈ s.closed
  exact : ∀ c ∈ s.components, ∀ a ∈ c, ∀ b, b ∈ c ↔ Reaches next a b ∧ Reaches next b a
  nonempty : ∀ c ∈ s.components, c ≠ []

/-- A search under way. -/
structure Inv (next : String → List String) (s : Search) : Prop extends Sound next s where
  stacked : Stacked next s s.frames s.stack

namespace Sound

theorem found_of_mem_stack (h : Sound next s) {m : String} (hm : m ∈ s.stack) :
    s.found m = true :=
  (h.found m).2 (.inl hm)

/-- Nothing leads out of the closed components. -/
theorem closed_of_reaches (h : Sound next s) {a b : String} (ha : a ∈ s.closed)
    (hab : Reaches next a b) : b ∈ s.closed := by
  induction hab with
  | refl => exact ha
  | tail _ hstep ih => exact h.closed _ ih _ hstep

theorem enter (h : Sound next s) {a : String} (ha : s.found a ≠ true) :
    Sound next (s.enter next a) where
  found m := by
    rw [found_enter, h.found]
    show a = m ∨ m ∈ s.stack ∨ m ∈ s.closed ↔ m ∈ a :: s.stack ∨ m ∈ s.closed
    rw [List.mem_cons, eq_comm, or_assoc]
  nodup := by
    refine List.nodup_cons.2 ⟨fun hmem => ha ?_, h.nodup⟩
    exact (h.found a).2 (List.mem_append.1 hmem)
  numbered m hm := by
    rw [number_enter]
    split
    · exact Nat.lt_succ_self _
    · next hne =>
      have hm : m ∈ s.stack := (List.mem_cons.1 hm).resolve_left fun heq => hne heq.symm
      exact Nat.lt_succ_of_lt (h.numbered m hm)
  falling := by
    have hne (m : String) (hm : m ∈ s.stack) : a ≠ m := by
      rintro rfl
      exact ha (h.found_of_mem_stack hm)
    refine List.pairwise_cons.2 ⟨fun m hm => ?_, h.falling.imp_of_mem fun {b c} hb hc hlt => ?_⟩
    · rw [number_enter, number_enter, if_pos rfl, if_neg (hne m hm)]
      exact h.numbered m hm
    · rw [number_enter, number_enter, if_neg (hne b hb), if_neg (hne c hc)]
      exact hlt
  closed := h.closed
  exact := h.exact
  nonempty := h.nonempty

/-- Neither the lowest numbers nor the nodes under way matter. -/
theorem of_eq (h : Sound next s) (hcount : t.count = s.count) (hnumbers : t.numbers = s.numbers)
    (hstack : t.stack = s.stack) (hcomponents : t.components = s.components) :
    Sound next t := by
  obtain ⟨count, numbers, lows, stack, frames, components⟩ := s
  obtain ⟨count', numbers', lows', stack', frames', components'⟩ := t
  dsimp only at hcount hnumbers hstack hcomponents
  subst hcount hnumbers hstack hcomponents
  exact ⟨h.found, h.nodup, h.numbered, h.falling, h.closed, h.exact, h.nonempty⟩

end Sound

theorem cut_append {node : String} {upper : List String} (hupper : node ∉ upper)
    (below : List String) : cut node (upper ++ node :: below) = (upper ++ [node], below) := by
  induction upper with
  | nil => simp [cut]
  | cons m rest ih =>
    obtain ⟨hm, hrest⟩ := not_or.1 (List.mem_cons.not.1 hupper)
    rw [List.cons_append, cut, if_neg fun heq => hm heq.symm, ih hrest]
    rfl

section Close

variable {node : String} {upper below : List String}

/-- Everything that is reached from the segment of a node that reaches no lower number than its
own lies in the segment or in a component that is closed already. -/
theorem Sound.leads_within (h : Sound next s) (hstack : s.stack = upper ++ node :: below)
    (segment : Segment next s ⟨node, []⟩ upper below) (hlow : s.low node = s.number node) :
    ∀ m ∈ s.closed ++ (upper ++ [node]), ∀ k ∈ next m, k ∈ s.closed ++ (upper ++ [node]) := by
  have hfalling : s.Falling (upper ++ node :: below) := hstack ▸ h.falling
  have hseen {m : String} (hm : s.Seen (s.low node) m) : m ∈ s.closed ++ (upper ++ [node]) := by
    rcases hm.2 with hclosed | hle
    · exact List.mem_append_left _ hclosed
    · rcases (h.found m).1 hm.1 with hmem | hclosed
      · rw [hstack, List.mem_append, List.mem_cons] at hmem
        rcases hmem with hupper | rfl | hbelow
        · exact List.mem_append_right _ (List.mem_append_left _ hupper)
        · simp
        · rw [hlow] at hle
          exact absurd (hfalling.lt_below hbelow) (Nat.not_lt.2 hle)
      · exact List.mem_append_left _ hclosed
  intro m hm k hk
  rw [List.mem_append, List.mem_append, List.mem_singleton] at hm
  rcases hm with hclosed | hupper | rfl
  · exact List.mem_append_left _ (h.closed m hclosed k hk)
  · exact hseen (segment.seen m hupper k hk)
  · obtain ⟨behind, hbehind, hlooked⟩ := segment.looked
    rw [List.append_nil] at hbehind
    exact hseen (hlooked k (hbehind ▸ hk))

/-- The segment of such a node is a whole component. -/
theorem Sound.mem_segment_iff (h : Sound next s) (hstack : s.stack = upper ++ node :: below)
    (segment : Segment next s ⟨node, []⟩ upper below) (hlow : s.low node = s.number node)
    {a : String} (ha : a ∈ upper ++ [node]) (b : String) :
    b ∈ upper ++ [node] ↔ Reaches next a b ∧ Reaches next b a := by
  have haround {m : String} (hm : m ∈ upper ++ [node]) :
      Reaches next node m ∧ Reaches next m node := by
    rcases List.mem_append.1 hm with hm | hm
    · exact segment.around m hm
    · rw [List.mem_singleton.1 hm]
      exact ⟨.refl, .refl⟩
  constructor
  · intro hb
    exact ⟨(haround ha).2.trans (haround hb).1, (haround hb).2.trans (haround ha).1⟩
  · rintro ⟨hab, hba⟩
    have hwithin : b ∈ s.closed ++ (upper ++ [node]) := by
      clear hba
      induction hab with
      | refl => exact List.mem_append_right _ ha
      | tail _ hstep ih => exact h.leads_within hstack segment hlow _ ih _ hstep
    refine (List.mem_append.1 hwithin).resolve_left fun hclosed => ?_
    -- A node of a closed component leads to closed components only, and `a` is on the stack.
    have hmem : a ∈ s.stack := by
      rw [hstack]
      rcases List.mem_append.1 ha with ha | ha
      · exact List.mem_append_left _ ha
      · rw [List.mem_singleton.1 ha]
        exact List.mem_append_right _ List.mem_cons_self
    exact (List.nodup_append.1 h.nodup).2.2 a hmem a (h.closed_of_reaches hclosed hba) rfl

theorem Sound.close_eq (h : Sound next s) (hstack : s.stack = upper ++ node :: below)
    (hlow : s.low node = s.number node) : s.close node =
      { s with stack := below, components := s.components ++ [upper ++ [node]] } := by
  have hfalling : s.Falling (upper ++ node :: below) := hstack ▸ h.falling
  rw [Search.close, if_pos hlow, hstack, cut_append hfalling.not_mem_upper]

/-- Closing the component of a node keeps what holds of the search. -/
theorem Sound.close (h : Sound next s) (hstack : s.stack = upper ++ node :: below)
    (segment : Segment next s ⟨node, []⟩ upper below) (hlow : s.low node = s.number node) :
    Sound next (s.close node) := by
  have hclosed : (s.close node).closed = s.closed ++ (upper ++ [node]) := by
    rw [h.close_eq hstack hlow]
    simp [Search.closed]
  have hperm : (s.stack ++ s.closed).Perm (below ++ (s.closed ++ (upper ++ [node]))) := by
    have hsegment : s.stack = (upper ++ [node]) ++ below := by simp [hstack]
    rw [hsegment, List.append_assoc, ← List.append_assoc below]
    exact List.perm_append_comm
  have hbelow {m : String} (hm : m ∈ below) : m ∈ s.stack := by
    rw [hstack]
    exact List.mem_append_right _ (List.mem_cons_of_mem _ hm)
  have hfalling : s.Falling (upper ++ node :: below) := hstack ▸ h.falling
  refine ⟨fun m => ?_, ?_, ?_, ?_, ?_, ?_, ?_⟩
  · rw [hclosed, h.close_eq hstack hlow]
    show s.found m = true ↔ m ∈ below ∨ m ∈ s.closed ++ (upper ++ [node])
    rw [h.found, ← List.mem_append, ← List.mem_append]
    exact hperm.mem_iff
  · rw [hclosed, h.close_eq hstack hlow]
    exact hperm.nodup_iff.1 h.nodup
  · rw [h.close_eq hstack hlow]
    exact fun m hm => h.numbered m (hbelow hm)
  · rw [h.close_eq hstack hlow]
    exact hfalling.tail
  · rw [hclosed]
    exact h.leads_within hstack segment hlow
  · rw [h.close_eq hstack hlow]
    intro c hc a ha b
    rcases List.mem_append.1 hc with hc | hc
    · exact h.exact c hc a ha b
    · obtain rfl := List.mem_singleton.1 hc
      exact h.mem_segment_iff hstack segment hlow ha b
  · rw [h.close_eq hstack hlow]
    intro c hc
    rcases List.mem_append.1 hc with hc | hc
    · exact h.nonempty c hc
    · rw [List.mem_singleton.1 hc]
      simp

theorem Sound.onward_close (h : Sound next s) (hstack : s.stack = upper ++ node :: below)
    (hlow : s.low node = s.number node) : Onward s (s.close node) := by
  rw [h.close_eq hstack hlow]
  refine ⟨fun _ hm => hm, fun _ _ => rfl, fun m hm => ?_⟩
  show m ∈ (s.components ++ [upper ++ [node]]).flatten
  rw [List.flatten_append]
  exact List.mem_append_left _ hm

/-- A node that is left where it reaches no lower number than its own. -/
theorem Inv.close (h : Sound next s) (hstack : s.stack = upper ++ node :: below)
    (segment : Segment next s ⟨node, []⟩ upper below) (hlow : s.low node = s.number node)
    (rest : Stacked next s s.frames below) : Inv next (s.close node) := by
  refine ⟨h.close hstack segment hlow, ?_⟩
  have hrest : Stacked next (s.close node) s.frames below := by
    refine rest.onward (h.onward_close hstack hlow) (fun f _ => ?_) fun m hm => ?_
    · rw [h.close_eq hstack hlow]
      rfl
    · apply h.found_of_mem_stack
      rw [hstack]
      exact List.mem_append_right _ (List.mem_cons_of_mem _ hm)
  rw [h.close_eq hstack hlow] at hrest ⊢
  exact hrest

end Close

/-! ## Steps -/

theorem Inv.look {node m : String} {ahead : List String} {outer : List Frame} (h : Sound next s)
    (hframes : s.frames = ⟨node, ahead⟩ :: outer)
    (hstacked : Stacked next s (⟨node, m :: ahead⟩ :: outer) s.stack) :
    Inv next (look next s node m) := by
  have hstack (a : String) (ha : a ∈ s.stack) : s.found a = true := h.found_of_mem_stack ha
  unfold Search.look
  cases hfound : s.found m with
  | false =>
    have hnew : s.found m ≠ true := by simp [hfound]
    have hne {a : String} (ha : a ∈ s.stack) : m ≠ a := by
      rintro rfl
      exact hnew (hstack m ha)
    have hlow {f : Frame} (hf : f ∈ Frame.mk node (m :: ahead) :: outer) :
        (s.enter next m).low f.node = s.low f.node := by
      rw [low_enter, if_neg (hne (hstacked.node_mem hf))]
    have hpassed : Stacked next (s.enter next m) (⟨node, ahead⟩ :: outer) s.stack := by
      apply (hstacked.onward (onward_enter hnew) (fun f hf => hlow hf) hstack).advance
      refine ⟨found_enter.2 (.inl rfl), .inr ?_⟩
      obtain ⟨y, hy, hnumber, _⟩ := hstacked.low_mem
      rw [number_enter, if_pos rfl, hlow List.mem_cons_self, ← hnumber]
      exact Nat.le_of_lt (h.numbered y hy)
    have hlink : m ∈ next node := by
      obtain ⟨_, _, _, segment, _, _⟩ := hstacked.uncons
      exact segment.mem_next
    refine ⟨h.enter hnew, ?_⟩
    show Stacked next (s.enter next m) (⟨m, next m⟩ :: s.frames) ([] ++ m :: s.stack)
    rw [hframes]
    refine .cons ⟨⟨[], rfl, by simp⟩, by simp, by simp, m, List.mem_cons_self, ?_, .refl⟩ ?_ hpassed
    · rw [number_enter, low_enter, if_pos rfl, if_pos rfl]
    · intro g hg
      obtain rfl : (⟨node, ahead⟩ : Frame) = g := by simpa using hg
      exact hlink
  | true =>
    by_cases hmem : m ∈ s.stack
    · have hlowered : Stacked next (s.lower node (s.number m)) (⟨node, m :: ahead⟩ :: outer)
          s.stack := by
        refine hstacked.lower h.falling hstack (.inr ⟨m, hmem, rfl, .single ?_⟩)
        obtain ⟨_, _, _, segment, _, _⟩ := hstacked.uncons
        exact segment.mem_next
      have hpassed := hlowered.advance (m := m) ⟨hfound, .inr ?_⟩
      · simp only [Bool.not_true, Bool.false_eq_true, if_false, List.contains_iff_mem, hmem, if_true]
        refine ⟨h.of_eq rfl rfl rfl rfl, ?_⟩
        show Stacked next _ s.frames s.stack
        rw [hframes]
        exact hpassed
      · rw [low_lower, if_pos rfl]
        exact Nat.min_le_right _ _
    · have hclosed : m ∈ s.closed := ((h.found m).1 hfound).resolve_left hmem
      simp only [Bool.not_true, Bool.false_eq_true, if_false, List.contains_iff_mem, hmem]
      refine ⟨h, ?_⟩
      rw [hframes]
      exact hstacked.advance ⟨hfound, .inl hclosed⟩

theorem Inv.leave {node : String} (h : Sound next s)
    (hstacked : Stacked next s (⟨node, []⟩ :: s.frames) s.stack) : Inv next (s.leave node) := by
  obtain ⟨upper, below, hstack, segment, link, rest⟩ := hstacked.uncons
  have hfalling : s.Falling (upper ++ node :: below) := hstack ▸ h.falling
  have hfound (m : String) (hm : m ∈ node :: below) : s.found m = true := by
    apply h.found_of_mem_stack
    rw [hstack]
    exact List.mem_append_right _ hm
  unfold Search.leave
  cases hframes : s.frames with
  | nil =>
    rw [hframes] at rest
    obtain rfl := rest.stack_eq_nil
    obtain ⟨y, hy, hnumber, _⟩ := segment.low
    obtain rfl := List.mem_singleton.1 hy
    exact Inv.close h hstack segment hnumber.symm (hframes ▸ rest)
  | cons g outer =>
    rw [hframes] at rest link
    have hne : g.node ≠ node := by
      intro heq
      exact hfalling.not_mem_below (heq ▸ rest.node_mem List.mem_cons_self)
    have hsame : (s.lower g.node (s.low node)).low node = s.low node := by
      rw [low_lower, if_neg hne]
    have hlowered : Sound next (s.lower g.node (s.low node)) := h.of_eq rfl rfl rfl rfl
    by_cases hlow : s.low node = s.number node
    · refine Inv.close hlowered hstack (segment.onward (onward_lower _ _) hsame hfound)
        (hsame.trans hlow) ?_
      show Stacked next _ s.frames below
      rw [hframes]
      refine rest.lower hfalling.tail (fun m hm => hfound m (List.mem_cons_of_mem _ hm)) (.inl ?_)
      obtain ⟨upper', below', heq, segment', _, _⟩ := rest.uncons
      rw [hlow]
      refine (segment'.low_le (heq ▸ hfalling.tail)).trans (Nat.le_of_lt (hfalling.lt_below ?_))
      exact rest.node_mem List.mem_cons_self
    · have hstays : (s.lower g.node (s.low node)).close node = s.lower g.node (s.low node) := by
        rw [Search.close, if_neg]
        rw [hsame]
        exact hlow
      dsimp only
      rw [hstays]
      refine ⟨hlowered, ?_⟩
      show Stacked next _ s.frames s.stack
      rw [hframes, hstack]
      exact rest.merge segment (link g rfl) hfalling
        (fun m hm => hfound m (List.mem_cons_of_mem _ hm)) hlow

theorem Inv.step (h : Inv next s) : Inv next (step next s) := by
  have hreframe (frames : List Frame) : Sound next { s with frames := frames } ∧
      Stacked next { s with frames := frames } s.frames s.stack := by
    refine ⟨h.toSound.of_eq rfl rfl rfl rfl, h.stacked.onward ?_ (fun _ _ => rfl) ?_⟩
    · exact ⟨fun _ hm => hm, fun _ _ => rfl, fun _ hm => hm⟩
    · exact fun m hm => h.found_of_mem_stack hm
  unfold Search.step
  split
  · exact h
  · next node m ahead outer hframes =>
    obtain ⟨hsound, hstacked⟩ := hreframe (⟨node, ahead⟩ :: outer)
    rw [hframes] at hstacked
    exact Inv.look hsound rfl hstacked
  · next node outer hframes =>
    obtain ⟨hsound, hstacked⟩ := hreframe outer
    rw [hframes] at hstacked
    exact Inv.leave hsound hstacked

/-! ## The end of a search -/

/-- What is left to do within a set of nodes: successors to be looked at and nodes to be left,
of the nodes under way and of those not found yet. -/
def work (next : String → List String) (nodes : Finset String) (s : Search) : Nat :=
  (s.frames.map fun f => f.ahead.length + 1).sum +
    ∑ n ∈ nodes with s.found n = false, ((next n).length + 1)

section Work

variable {nodes : Finset String} {node m : String}

/-- Finding a node moves its share from the nodes not found to those under way. -/
theorem work_enter (hm : m ∈ nodes) (hfound : s.found m = false) :
    work next nodes (s.enter next m) = work next nodes s := by
  have hrest : (nodes.filter fun n => (s.enter next m).found n = false) =
      (nodes.filter fun n => s.found n = false).erase m := by
    ext n
    simp only [Finset.mem_filter, Finset.mem_erase, ← Bool.not_eq_true, found_enter, not_or]
    constructor
    · rintro ⟨hn, hne, hnot⟩
      exact ⟨fun heq => hne heq.symm, hn, hnot⟩
    · rintro ⟨hne, hn, hnot⟩
      exact ⟨hn, fun heq => hne heq.symm, hnot⟩
  have hshare := Finset.add_sum_erase (nodes.filter fun n => s.found n = false)
    (fun n => (next n).length + 1) (Finset.mem_filter.2 ⟨hm, hfound⟩)
  unfold work
  rw [hrest]
  show (((next m).length + 1) :: s.frames.map fun f => f.ahead.length + 1).sum + _ = _
  rw [List.sum_cons]
  omega

theorem work_look (hm : m ∈ nodes) :
    work next nodes (look next s node m) = work next nodes s := by
  unfold look
  cases hfound : s.found m with
  | false => exact work_enter hm hfound
  | true =>
    simp only [Bool.not_true, Bool.false_eq_true, if_false]
    split <;> rfl

theorem work_leave : work next nodes (s.leave node) = work next nodes s := by
  have hclose (t : Search) : work next nodes (t.close node) = work next nodes t := by
    unfold close
    split <;> rfl
  unfold leave
  split
  · exact hclose s
  · rw [hclose]
    rfl

/-- Every step does one part of the work. -/
theorem work_step (hnodes : ∀ n, ∀ m ∈ next n, m ∈ nodes) (h : Inv next s)
    (hframes : s.frames ≠ []) : work next nodes (step next s) + 1 = work next nodes s := by
  unfold step
  split
  · next hnil => exact absurd hnil hframes
  · next node m ahead outer hcons =>
    have hm : m ∈ next node := by
      have hstacked := h.stacked
      rw [hcons] at hstacked
      obtain ⟨_, _, _, segment, _, _⟩ := hstacked.uncons
      exact segment.mem_next
    rw [work_look (hnodes node m hm)]
    unfold work found
    rw [hcons]
    simp only [List.map_cons, List.sum_cons, List.length_cons]
    omega
  · next node outer hcons =>
    rw [work_leave]
    unfold work found
    rw [hcons]
    simp only [List.map_cons, List.sum_cons, List.length_nil]
    omega

end Work

/-- Enough steps for the work from any one node on. -/
def Enough (next : String → List String) (steps : Nat) : Prop :=
  ∀ node, ∃ nodes : Finset String, node ∈ nodes ∧ (∀ n, ∀ m ∈ next n, m ∈ nodes) ∧
    ∑ n ∈ nodes, ((next n).length + 1) ≤ steps

/-- With as many steps as there is work, a search ends with no node under way. -/
theorem run_spec {nodes : Finset String} (hnodes : ∀ n, ∀ m ∈ next n, m ∈ nodes) {steps : Nat}
    (h : Inv next s) (hwork : work next nodes s ≤ steps) :
    Inv next (run next steps s) ∧ (run next steps s).frames = [] := by
  induction steps generalizing s with
  | zero =>
    refine ⟨h, ?_⟩
    cases hframes : s.frames with
    | nil => exact hframes
    | cons f outer =>
      unfold work at hwork
      rw [hframes, List.map_cons, List.sum_cons] at hwork
      omega
  | succ steps ih =>
    unfold run
    split
    · next hempty => exact ⟨h, List.isEmpty_iff.1 hempty⟩
    · next hframes =>
      have hstep := work_step hnodes h fun hnil => hframes (List.isEmpty_iff.2 hnil)
      exact ih h.step (by omega)

/-- Steps beyond the end of a search change nothing. -/
theorem run_eq_of_le {steps more : Nat} (hle : steps ≤ more)
    (hframes : (run next steps s).frames = []) : run next more s = run next steps s := by
  induction steps generalizing s more with
  | zero =>
    cases more with
    | zero => rfl
    | succ more => exact if_pos (List.isEmpty_iff.2 hframes)
  | succ steps ih =>
    obtain ⟨more, rfl⟩ : ∃ n, more = n + 1 := ⟨more - 1, by omega⟩
    unfold run at hframes ⊢
    split
    · rfl
    · next hrunning =>
      rw [if_neg hrunning] at hframes
      exact ih (Nat.le_of_succ_le_succ hle) hframes

theorem found_step {m : String} (hm : s.found m = true) : (step next s).found m = true := by
  have hclose (t : Search) (node : String) (ht : t.found m = true) :
      (t.close node).found m = true := by
    unfold close
    split <;> exact ht
  unfold step
  split
  · exact hm
  · unfold look
    split
    · exact found_enter.2 (.inr hm)
    · split <;> exact hm
  · unfold leave
    split <;> exact hclose _ _ hm

theorem found_run {m : String} (steps : Nat) (hm : s.found m = true) :
    (run next steps s).found m = true := by
  induction steps generalizing s with
  | zero => exact hm
  | succ steps ih =>
    unfold run
    split
    · exact hm
    · exact ih (found_step hm)

/-- A search in which no node is under way. -/
structure Finished (next : String → List String) (s : Search) : Prop extends Sound next s where
  frames : s.frames = []
  stack : s.stack = []

theorem finished_start : Finished next start := by
  refine ⟨⟨fun m => ?_, List.nodup_nil, ?_, List.Pairwise.nil, ?_, ?_, ?_⟩, rfl, rfl⟩
  · simp [found, Dict.has, start, Dict.empty, closed]
  · simp [start]
  · simp [closed, start]
  · simp [start]
  · simp [start]

/-- The search from a node that has not been found yet comes to its end. -/
theorem Finished.run (h : Finished next s) {steps : Nat} (henough : Enough next steps)
    {node : String} (hfound : s.found node = false) :
    Finished next (run next steps (s.enter next node)) := by
  have henter : Inv next (s.enter next node) := by
    refine ⟨h.toSound.enter (by simp [hfound]), ?_⟩
    show Stacked next _ (⟨node, next node⟩ :: s.frames) ([] ++ node :: s.stack)
    rw [h.frames, h.stack]
    refine .cons ⟨⟨[], rfl, by simp⟩, by simp, by simp, node, List.mem_cons_self, ?_, .refl⟩
      (by simp) .nil
    rw [number_enter, low_enter, if_pos rfl, if_pos rfl]
  obtain ⟨nodes, hnode, hnodes, hsteps⟩ := henough node
  have hwork : work next nodes (s.enter next node) ≤ steps := by
    rw [work_enter hnode hfound, work, h.frames, List.map_nil, List.sum_nil, Nat.zero_add]
    exact (Finset.sum_le_sum_of_subset (Finset.filter_subset _ _)).trans hsteps
  obtain ⟨hinv, hframes⟩ := run_spec hnodes henter hwork
  exact ⟨hinv.toSound, hframes, (hframes ▸ hinv.stacked).stack_eq_nil⟩

theorem Finished.visit (h : Finished next s) {steps : Nat} (henough : Enough next steps)
    (node : String) : Finished next (visit next steps s node) ∧
      (visit next steps s node).found node = true := by
  unfold Search.visit
  cases hfound : s.found node with
  | true => exact ⟨h, hfound⟩
  | false => exact ⟨h.run henough hfound, found_run steps (found_enter.2 (.inl rfl))⟩

theorem Finished.visit_eq (h : Finished next s) {steps more : Nat} (henough : Enough next steps)
    (hle : steps ≤ more) (node : String) :
    Search.visit next more s node = Search.visit next steps s node := by
  unfold Search.visit
  cases hfound : s.found node with
  | true => rfl
  | false => exact run_eq_of_le hle (h.run henough hfound).frames

theorem found_visit {steps : Nat} {node m : String} (hm : s.found m = true) :
    (visit next steps s node).found m = true := by
  unfold visit
  split
  · exact hm
  · exact found_run steps (found_enter.2 (.inr hm))

/-- A search from every node of a list comes to its end, and every node of the list is in one of
its components. -/
theorem visitAll_spec {steps : Nat} (henough : Enough next steps) (nodes : List String) :
    Finished next (visitAll next steps nodes) ∧
      ∀ n ∈ nodes, n ∈ (visitAll next steps nodes).closed := by
  have hfold (s : Search) (hs : Finished next s) :
      Finished next (nodes.foldl (visit next steps) s) ∧
        ∀ n, n ∈ nodes ∨ s.found n = true → (nodes.foldl (visit next steps) s).found n = true := by
    induction nodes generalizing s with
    | nil => exact ⟨hs, fun n hn => hn.resolve_left (by simp)⟩
    | cons first rest ih =>
      obtain ⟨hvisit, hfirst⟩ := hs.visit henough first
      refine ⟨(ih _ hvisit).1, fun n hn => (ih _ hvisit).2 n ?_⟩
      rcases hn with hn | hn
      · rcases List.mem_cons.1 hn with rfl | hn
        · exact .inr hfirst
        · exact .inl hn
      · exact .inr (found_visit hn)
  obtain ⟨hfinished, hfound⟩ := hfold start finished_start
  refine ⟨hfinished, fun n hn => ?_⟩
  refine ((hfinished.found n).1 (hfound n (.inl hn))).resolve_left fun hmem => ?_
  rw [hfinished.stack] at hmem
  simp at hmem

/-- A limit on the steps beyond what is enough changes nothing. -/
theorem visitAll_eq_of_le {steps more : Nat} (henough : Enough next steps) (hle : steps ≤ more)
    (nodes : List String) : visitAll next more nodes = visitAll next steps nodes := by
  have hfold (s : Search) (hs : Finished next s) :
      nodes.foldl (visit next more) s = nodes.foldl (visit next steps) s := by
    induction nodes generalizing s with
    | nil => rfl
    | cons first rest ih =>
      rw [List.foldl_cons, List.foldl_cons, hs.visit_eq henough hle]
      exact ih _ (hs.visit henough first).1
  exact hfold start finished_start

end WorkflowGraph.Search
