import Mathlib.Data.List.Dedup
import WorkflowGraph.Proofs.Dict
import WorkflowGraph.Proofs.Transition.Component

/-!
# The components that contain a cycle

Of the components that a search finds, those are kept whose members lead back to themselves
(`cyclic_iff`). Two nodes share one of them exactly when each leads to the other
(`shares_cycle_iff`), and no node stands in two of them or twice in one (`nodup_cycles`). The
places of the nodes rise along the list of nodes, each taken once, so that sorting by place
makes every component a part of that list, and the first members as well
(`cycle_sublist`, `firsts_sublist`).
-/

set_option autoImplicit false

namespace WorkflowGraph

/-! ## Sorting -/

section Sorting

variable {α : Type} (key : α → Nat)

theorem insertBy_eq_orderedInsert (x : α) (l : List α) :
    insertBy key x l = l.orderedInsert (fun a b => key a ≤ key b) x := by
  induction l with
  | nil => rfl
  | cons y rest ih =>
    unfold insertBy
    rw [List.orderedInsert_cons, ih]

theorem sortBy_eq_insertionSort (l : List α) :
    sortBy key l = l.insertionSort fun a b => key a ≤ key b := by
  induction l with
  | nil => rfl
  | cons x rest ih =>
    unfold sortBy
    rw [insertBy_eq_orderedInsert, ih]
    rfl

theorem perm_sortBy (l : List α) : (sortBy key l).Perm l := by
  rw [sortBy_eq_insertionSort]
  exact List.perm_insertionSort _ l

theorem pairwise_sortBy (l : List α) : (sortBy key l).Pairwise fun a b => key a ≤ key b := by
  rw [sortBy_eq_insertionSort]
  have htotal : Std.Total fun a b : α => key a ≤ key b := ⟨fun a b => Nat.le_total _ _⟩
  have htrans : IsTrans α fun a b => key a ≤ key b := ⟨fun _ _ _ => Nat.le_trans⟩
  exact List.pairwise_insertionSort _ l

end Sorting

/-! ## Places -/

/-- The place that is noted for a node while a list of nodes is gone through from a number on. -/
def placed (places : Dict Nat) (first : Nat) (nodes : List String) (node : String) : Option Nat :=
  ((nodes.zipIdx first).foldl (fun d p => Dict.put d p.1 p.2) places).get? node

theorem placed_of_not_mem {places : Dict Nat} {first : Nat} {nodes : List String} {node : String}
    (h : node ∉ nodes) : placed places first nodes node = places.get? node := by
  unfold placed
  induction nodes generalizing places first with
  | nil => rfl
  | cons n rest ih =>
    obtain ⟨hne, hrest⟩ := not_or.1 (List.mem_cons.not.1 h)
    rw [List.zipIdx_cons, List.foldl_cons, ih hrest, Dict.get?_put_of_ne]
    exact fun heq => hne heq.symm

theorem exists_placed (places : Dict Nat) (first : Nat) {nodes : List String} {node : String}
    (h : node ∈ nodes) : ∃ i, first ≤ i ∧ i < first + nodes.length ∧
      placed places first nodes node = some i := by
  induction nodes generalizing places first with
  | nil => simp at h
  | cons n rest ih =>
    by_cases hrest : node ∈ rest
    · obtain ⟨i, hle, hlt, hi⟩ := ih (places.put n first) (first + 1) hrest
      refine ⟨i, by omega, ?_, hi⟩
      rw [List.length_cons]
      omega
    · obtain rfl : node = n := (List.mem_cons.1 h).resolve_right hrest
      refine ⟨first, Nat.le_refl _, by simp, ?_⟩
      exact (placed_of_not_mem hrest).trans (Dict.get?_put_self _ _ _)

/-- The places rise along the nodes, each taken where it stands last. -/
theorem pairwise_placed (places : Dict Nat) (first : Nat) (nodes : List String) :
    nodes.dedup.Pairwise fun a b => ∃ i j, placed places first nodes a = some i ∧
      placed places first nodes b = some j ∧ i < j := by
  induction nodes generalizing places first with
  | nil => simp
  | cons n rest ih =>
    have htail := ih (places.put n first) (first + 1)
    by_cases hn : n ∈ rest
    · rw [List.dedup_cons_of_mem hn]
      exact htail
    · rw [List.dedup_cons_of_notMem hn]
      refine List.pairwise_cons.2 ⟨fun b hb => ?_, htail⟩
      obtain ⟨j, hle, _, hj⟩ :=
        exists_placed (places.put n first) (first + 1) (List.mem_dedup.1 hb)
      exact ⟨first, j, (placed_of_not_mem hn).trans (Dict.get?_put_self _ _ _), hj, by omega⟩

theorem pairwise_placeIn (nodes : List String) :
    nodes.dedup.Pairwise fun a b => placeIn nodes a < placeIn nodes b := by
  refine (pairwise_placed [] 0 nodes).imp ?_
  rintro a b ⟨i, j, hi, hj, hlt⟩
  show (placed [] 0 nodes a).getD _ < (placed [] 0 nodes b).getD _
  rw [hi, hj]
  exact hlt

theorem placeIn_ne {nodes : List String} {a b : String} (ha : a ∈ nodes) (hb : b ∈ nodes)
    (hne : a ≠ b) : placeIn nodes a ≠ placeIn nodes b := by
  have hpairwise : nodes.dedup.Pairwise fun a b => placeIn nodes a ≠ placeIn nodes b :=
    (pairwise_placeIn nodes).imp Nat.ne_of_lt
  have hsymm : Std.Symm fun a b => placeIn nodes a ≠ placeIn nodes b := ⟨fun _ _ h => h.symm⟩
  exact hpairwise.forall (List.mem_dedup.2 ha) (List.mem_dedup.2 hb) hne

/-- Nodes of a list whose places rise stand in the order of the list. -/
theorem sublist_dedup_of_pairwise {nodes chosen : List String} (hsub : chosen ⊆ nodes)
    (h : chosen.Pairwise fun a b => placeIn nodes a < placeIn nodes b) :
    chosen.Sublist nodes.dedup := by
  have hantisymm : Std.Antisymm fun a b => placeIn nodes a < placeIn nodes b :=
    ⟨fun _ _ hab hba => absurd hab (Nat.lt_asymm hba)⟩
  have hnodup : chosen.Nodup := by
    refine h.imp ?_
    rintro a b hlt rfl
    exact Nat.lt_irrefl _ hlt
  have hsubperm := List.subperm_of_subset hnodup fun n hn => List.mem_dedup.2 (hsub hn)
  exact List.sublist_of_subperm_of_pairwise hsubperm h (pairwise_placeIn nodes)

namespace Search

open Reach (Step Leads Reaches)

variable {next : String → List String} {steps : Nat} {nodes : List String}

/-! ## Cyclic components -/

theorem leads_of_ne {a b : String} (hab : Reaches next a b) (hba : Reaches next b a)
    (hne : a ≠ b) : Leads next a a := by
  rcases Relation.reflTransGen_iff_eq_or_transGen.1 hab with heq | hab
  · exact absurd heq.symm hne
  · exact hab.trans_left hba

/-- A component is kept exactly when its members lead back to themselves. -/
theorem cyclic_iff {c : List String} (hnodup : c.Nodup)
    (hexact : ∀ a ∈ c, ∀ b, b ∈ c ↔ Reaches next a b ∧ Reaches next b a) {a : String}
    (ha : a ∈ c) : cyclic next c = true ↔ Leads next a a := by
  match c with
  | [] => simp at ha
  | [x] =>
    obtain rfl := List.mem_singleton.1 ha
    show (next a).contains a = true ↔ _
    rw [List.contains_iff_mem]
    constructor
    · exact fun hself => .single hself
    · intro h
      obtain ⟨m, hstep, hback⟩ := Relation.TransGen.head'_iff.1 h
      have hm : m ∈ [a] := (hexact a ha m).2 ⟨.single hstep, hback⟩
      exact List.mem_singleton.1 hm ▸ hstep
  | x :: y :: rest =>
    refine ⟨fun _ => ?_, fun _ => rfl⟩
    have hxy : x ≠ y := fun heq => (List.nodup_cons.1 hnodup).1 (heq ▸ List.mem_cons_self)
    obtain ⟨b, hb, hne⟩ : ∃ b ∈ x :: y :: rest, a ≠ b := by
      by_cases hax : a = x
      · exact ⟨y, by simp, hax ▸ hxy⟩
      · exact ⟨x, by simp, hax⟩
    obtain ⟨hab, hba⟩ := (hexact a ha b).1 hb
    exact leads_of_ne hab hba hne

theorem mem_cycles {c : List String} : c ∈ cycles next steps nodes ↔
    ∃ found ∈ (visitAll next steps nodes).components, cyclic next found = true ∧
      sortBy (placeIn nodes) found = c := by
  unfold cycles
  rw [(perm_sortBy _ _).mem_iff, List.mem_map]
  simp only [List.mem_filter, and_assoc]

theorem ne_nil_of_mem_cycles {c : List String} (hc : c ∈ cycles next steps nodes) : c ≠ [] := by
  obtain ⟨found, _, hcyclic, rfl⟩ := mem_cycles.1 hc
  intro hnil
  rw [← List.length_eq_zero_iff, (perm_sortBy _ _).length_eq, List.length_eq_zero_iff] at hnil
  subst hnil
  simp [cyclic] at hcyclic

/-- No node stands in two cycles, or twice in one. -/
theorem nodup_cycles (henough : Enough next steps) (nodes : List String) :
    (cycles next steps nodes).flatten.Nodup := by
  have hcomponents : (visitAll next steps nodes).components.flatten.Nodup :=
    (List.nodup_append.1 (visitAll_spec henough nodes).1.nodup).2.1
  have hkept : ((visitAll next steps nodes).components.filter (cyclic next)).flatten.Nodup :=
    hcomponents.sublist List.filter_sublist.flatten
  have hsorted (l : List (List String)) : ((l.map (sortBy (placeIn nodes))).flatten).Perm l.flatten := by
    induction l with
    | nil => exact .refl _
    | cons c rest ih => exact (perm_sortBy _ c).append ih
  unfold cycles
  exact (((perm_sortBy _ _).flatten.trans (hsorted _)).nodup_iff).2 hkept

section Exact

variable (henough : Enough next steps) (hnodes : ∀ n, next n ≠ [] → n ∈ nodes)
include henough hnodes

/-- Two nodes share a cycle exactly when each leads to the other. -/
theorem shares_cycle_iff (a b : String) :
    (∃ c ∈ cycles next steps nodes, a ∈ c ∧ b ∈ c) ↔ Leads next a b ∧ Leads next b a := by
  obtain ⟨hfinished, hfound⟩ := visitAll_spec henough nodes
  have hnodup {c : List String} (hc : c ∈ (visitAll next steps nodes).components) : c.Nodup :=
    (List.nodup_flatten.1 (List.nodup_append.1 hfinished.nodup).2.1).1 c hc
  constructor
  · rintro ⟨c, hc, ha, hb⟩
    obtain ⟨found, hmem, hcyclic, rfl⟩ := mem_cycles.1 hc
    rw [(perm_sortBy _ _).mem_iff] at ha hb
    have hexact := hfinished.exact found hmem
    obtain ⟨hab, hba⟩ := (hexact a ha b).1 hb
    have hloop : Leads next a a := (cyclic_iff (hnodup hmem) hexact ha).1 hcyclic
    exact ⟨hloop.trans_left hab, Relation.TransGen.trans_right hba hloop⟩
  · rintro ⟨hab, hba⟩
    have hloop : Leads next a a := hab.trans hba
    have ha : a ∈ nodes := by
      obtain ⟨m, hstep, _⟩ := Relation.TransGen.head'_iff.1 hloop
      exact hnodes a (List.ne_nil_of_mem hstep)
    obtain ⟨found, hmem, ha⟩ := List.mem_flatten.1 (hfound a ha)
    have hexact := hfinished.exact found hmem
    refine ⟨sortBy (placeIn nodes) found, mem_cycles.2 ⟨found, hmem, ?_, rfl⟩, ?_, ?_⟩
    · exact (cyclic_iff (hnodup hmem) hexact ha).2 hloop
    · rw [(perm_sortBy _ _).mem_iff]
      exact ha
    · rw [(perm_sortBy _ _).mem_iff]
      exact (hexact a ha b).2 ⟨hab.to_reflTransGen, hba.to_reflTransGen⟩

theorem mem_cycle_iff (a : String) :
    (∃ c ∈ cycles next steps nodes, a ∈ c) ↔ Leads next a a := by
  have h := shares_cycle_iff henough hnodes a a
  simpa only [and_self_iff] using h

theorem mem_nodes_of_mem_cycle {c : List String} (hc : c ∈ cycles next steps nodes) {a : String}
    (ha : a ∈ c) : a ∈ nodes := by
  have hloop := (mem_cycle_iff henough hnodes a).1 ⟨c, hc, ha⟩
  obtain ⟨m, hstep, _⟩ := Relation.TransGen.head'_iff.1 hloop
  exact hnodes a (List.ne_nil_of_mem hstep)

/-! ## Order -/

/-- The members of a cycle stand in the order of the nodes. -/
theorem cycle_sublist {c : List String} (hc : c ∈ cycles next steps nodes) :
    c.Sublist nodes.dedup := by
  have hwithin : c ⊆ nodes := fun a ha => mem_nodes_of_mem_cycle henough hnodes hc ha
  have hnodup : c.Nodup := (List.nodup_flatten.1 (nodup_cycles henough nodes)).1 c hc
  refine sublist_dedup_of_pairwise hwithin ?_
  obtain ⟨found, _, _, rfl⟩ := mem_cycles.1 hc
  refine ((pairwise_sortBy (placeIn nodes) found).and hnodup).imp_of_mem ?_
  rintro a b ha hb ⟨hle, hne⟩
  exact Nat.lt_of_le_of_ne hle (placeIn_ne (hwithin ha) (hwithin hb) hne)

/-- The first members of the cycles stand in the order of the nodes. -/
theorem firsts_sublist :
    ((cycles next steps nodes).filterMap List.head?).Sublist nodes.dedup := by
  have hwithin {c : List String} (hc : c ∈ cycles next steps nodes) {a : String}
      (ha : c.head? = some a) : a ∈ nodes :=
    mem_nodes_of_mem_cycle henough hnodes hc (List.mem_of_head? ha)
  refine sublist_dedup_of_pairwise (fun a ha => ?_) ?_
  · obtain ⟨c, hc, ha⟩ := List.mem_filterMap.1 ha
    exact hwithin hc ha
  · rw [List.pairwise_filterMap]
    have hapart := (List.nodup_flatten.1 (nodup_cycles henough nodes)).2
    have hrising : (cycles next steps nodes).Pairwise fun c c' =>
        (c.head?.map (placeIn nodes)).getD nodes.length ≤
          (c'.head?.map (placeIn nodes)).getD nodes.length := pairwise_sortBy _ _
    refine (hrising.and hapart).imp_of_mem ?_
    rintro c c' hc hc' ⟨hle, hdisjoint⟩ a ha b hb
    rw [ha, hb] at hle
    refine Nat.lt_of_le_of_ne hle (placeIn_ne (hwithin hc ha) (hwithin hc' hb) ?_)
    rintro rfl
    exact hdisjoint (List.mem_of_head? ha) (List.mem_of_head? hb)

end Exact

end Search

end WorkflowGraph
