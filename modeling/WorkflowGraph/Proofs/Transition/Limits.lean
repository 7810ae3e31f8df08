import Mathlib.Data.List.Dedup
import Mathlib.Data.List.Forall2
import Mathlib.Data.List.Perm.Basic
import Mathlib.Order.Bounds.Basic
import WorkflowGraph.Proofs.Dict
import WorkflowGraph.Transition.Table

/-!
# Limits for the members of cycles

The limits are handed out while the dictionary that holds them is consulted. What a component
inherits is read off the declared limits only, so what has been handed out to one component never
reaches another (`get?_grantAll`), and a member is missing exactly when neither it nor anything
in its component declares a limit and there is no default (`missing_grantAll`). As long as no
node stands in two components, neither the order of the components nor the one of their members
plays a part (`assignLimits_regroup`).
-/

set_option autoImplicit false

namespace WorkflowGraph.Definition

variable {d : Definition}

/-- The limits that the members of a component declare. -/
def declaredIn (d : Definition) (c : List String) : Set Nat :=
  {n | ∃ m ∈ c, d.loopLimits.get? m = some n}

/-- A node that stands in a component without any declared limit, where there is no default. -/
def LacksLimit (d : Definition) (cycles : List (List String)) (m : String) : Prop :=
  d.defaults.loopLimit = none ∧ ∃ c ∈ cycles, m ∈ c ∧ ∀ k ∈ c, d.loopLimits.get? k = none

/-! ## What a component inherits -/

theorem min?_declared {c : List String} {n : Nat} :
    (c.filterMap d.loopLimits.get?).min? = some n ↔ IsLeast (d.declaredIn c) n := by
  rw [List.min?_eq_some_iff, List.mem_filterMap]
  refine and_congr Iff.rfl ⟨fun h k hk => h k (List.mem_filterMap.2 hk), fun h k hk => h ?_⟩
  exact List.mem_filterMap.1 hk

theorem inheritedLimit?_of_isLeast {c : List String} {n : Nat} (h : IsLeast (d.declaredIn c) n) :
    d.inheritedLimit? c = some n := by
  unfold inheritedLimit?
  rw [min?_declared.2 h]

theorem inheritedLimit?_of_forall_none {c : List String}
    (h : ∀ m ∈ c, d.loopLimits.get? m = none) : d.inheritedLimit? c = d.defaults.loopLimit := by
  have hnil : c.filterMap d.loopLimits.get? = [] := List.filterMap_eq_nil_iff.2 h
  unfold inheritedLimit?
  rw [hnil]
  rfl

/-- A component declares a least limit or none at all. -/
theorem isLeast_or_forall_none (d : Definition) (c : List String) :
    (∃ n, IsLeast (d.declaredIn c) n) ∨ ∀ m ∈ c, d.loopLimits.get? m = none := by
  cases hmin : (c.filterMap d.loopLimits.get?).min? with
  | some n => exact .inl ⟨n, min?_declared.1 hmin⟩
  | none => exact .inr (List.filterMap_eq_nil_iff.1 (List.min?_eq_none_iff.1 hmin))

theorem inheritedLimit?_eq_none_iff {c : List String} : d.inheritedLimit? c = none ↔
    d.defaults.loopLimit = none ∧ ∀ m ∈ c, d.loopLimits.get? m = none := by
  rcases d.isLeast_or_forall_none c with ⟨n, hn⟩ | hnone
  · rw [inheritedLimit?_of_isLeast hn]
    constructor
    · simp
    · rintro ⟨_, hall⟩
      obtain ⟨m, hm, hdeclared⟩ := hn.1
      rw [hall m hm] at hdeclared
      cases hdeclared
  · rw [inheritedLimit?_of_forall_none hnone]
    exact ⟨fun h => ⟨h, hnone⟩, And.left⟩

theorem inheritedLimit?_eq_of_perm {c c' : List String} (h : c.Perm c') :
    d.inheritedLimit? c = d.inheritedLimit? c' := by
  have hdeclared : d.declaredIn c = d.declaredIn c' := by
    unfold declaredIn
    simp only [h.mem_iff]
  rcases d.isLeast_or_forall_none c with ⟨n, hn⟩ | hnone
  · rw [inheritedLimit?_of_isLeast hn, inheritedLimit?_of_isLeast (hdeclared ▸ hn)]
  · rw [inheritedLimit?_of_forall_none hnone,
      inheritedLimit?_of_forall_none fun m hm => hnone m (h.mem_iff.2 hm)]

/-! ## Handing out -/

variable {acc : Dict Nat × List String}

theorem get?_grantLimit (inherited : Option Nat) (acc : Dict Nat × List String)
    (member k : String) : (grantLimit inherited acc member).1.get? k =
      if member = k then (acc.1.get? k).or inherited else acc.1.get? k := by
  unfold grantLimit
  by_cases hk : member = k
  · subst hk
    rw [if_pos rfl]
    cases hlimit : acc.1.get? member with
    | some n => simp [Dict.has, hlimit]
    | none =>
      cases inherited with
      | some n => simp [Dict.has, hlimit, Dict.get?_put_self]
      | none => simp [Dict.has, hlimit]
  · rw [if_neg hk]
    split
    · rfl
    · cases inherited with
      | some n => exact Dict.get?_put_of_ne _ _ hk
      | none => rfl

/-- The members of a component get what it inherits where they have no limit yet. -/
theorem get?_grantLimits (acc : Dict Nat × List String) (c : List String) (k : String) :
    (d.grantLimits acc c).1.get? k =
      if k ∈ c then (acc.1.get? k).or (d.inheritedLimit? c) else acc.1.get? k := by
  unfold grantLimits
  generalize d.inheritedLimit? c = inherited
  induction c generalizing acc with
  | nil => simp
  | cons m rest ih =>
    rw [List.foldl_cons, ih, get?_grantLimit]
    by_cases hm : m = k
    · subst hm
      simp [Option.or_assoc]
    · simp [hm, Ne.symm hm]

theorem foldl_grantLimit_none {limits : Dict Nat} {members : List String}
    (h : ∀ m ∈ members, limits.get? m = none) (missing : List String) :
    members.foldl (grantLimit none) (limits, missing) = (limits, missing ++ members) := by
  induction members generalizing missing with
  | nil => simp
  | cons m rest ih =>
    have hm : grantLimit none (limits, missing) m = (limits, missing ++ [m]) := by
      unfold grantLimit Dict.has
      rw [h m List.mem_cons_self]
      rfl
    rw [List.foldl_cons, hm, ih fun k hk => h k (List.mem_cons_of_mem _ hk), List.append_assoc]
    rfl

theorem missing_foldl_grantLimit_some (n : Nat) (members : List String) :
    (members.foldl (grantLimit (some n)) acc).2 = acc.2 := by
  induction members generalizing acc with
  | nil => rfl
  | cons m rest ih =>
    rw [List.foldl_cons, ih]
    unfold grantLimit
    split <;> rfl

/-- A component that inherits nothing is missing as a whole, and nothing is missing of any
other. -/
theorem missing_grantLimits {c : List String}
    (hacc : ∀ m ∈ c, acc.1.get? m = d.loopLimits.get? m) : (d.grantLimits acc c).2 =
      acc.2 ++ if (d.inheritedLimit? c).isNone then c else [] := by
  unfold grantLimits
  cases hinherited : d.inheritedLimit? c with
  | some n =>
    rw [missing_foldl_grantLimit_some]
    simp
  | none =>
    obtain ⟨_, hnone⟩ := inheritedLimit?_eq_none_iff.1 hinherited
    rw [foldl_grantLimit_none fun m hm => (hacc m hm).trans (hnone m hm)]
    rfl

/-! ## All components -/

/-- What a node inherits: the limit of the first component with one in which it stands. -/
def inheritedIn (d : Definition) (cycles : List (List String)) (m : String) : Option Nat :=
  cycles.findSome? fun c => if m ∈ c then d.inheritedLimit? c else none

/-- The members of the components that inherit nothing. -/
def unlimited (d : Definition) (cycles : List (List String)) : List String :=
  cycles.flatMap fun c => if (d.inheritedLimit? c).isNone then c else []

theorem inheritedIn_cons (c : List String) (rest : List (List String)) (m : String) :
    d.inheritedIn (c :: rest) m =
      (if m ∈ c then d.inheritedLimit? c else none).or (d.inheritedIn rest m) := by
  unfold inheritedIn
  rw [List.findSome?_cons]
  cases (if m ∈ c then d.inheritedLimit? c else none) <;> rfl

theorem get?_grantAll (acc : Dict Nat × List String) (cycles : List (List String)) (k : String) :
    (cycles.foldl d.grantLimits acc).1.get? k = (acc.1.get? k).or (d.inheritedIn cycles k) := by
  induction cycles generalizing acc with
  | nil => simp [inheritedIn]
  | cons c rest ih =>
    rw [List.foldl_cons, ih, get?_grantLimits, inheritedIn_cons]
    by_cases hk : k ∈ c
    · rw [if_pos hk, if_pos hk, Option.or_assoc]
    · rw [if_neg hk, if_neg hk]
      rfl

theorem missing_grantAll {cycles : List (List String)} (hapart : cycles.Pairwise List.Disjoint)
    (hacc : ∀ c ∈ cycles, ∀ m ∈ c, acc.1.get? m = d.loopLimits.get? m) :
    (cycles.foldl d.grantLimits acc).2 = acc.2 ++ d.unlimited cycles := by
  induction cycles generalizing acc with
  | nil => simp [unlimited]
  | cons c rest ih =>
    obtain ⟨hfirst, hrest⟩ := List.pairwise_cons.1 hapart
    rw [List.foldl_cons, ih hrest, missing_grantLimits (hacc c List.mem_cons_self), unlimited,
      unlimited, List.flatMap_cons, List.append_assoc]
    -- What the first component has been given is of no concern to the others.
    intro c' hc' m hm
    rw [get?_grantLimits, if_neg fun hmem => hfirst c' hc' hmem hm]
    exact hacc c' (List.mem_cons_of_mem _ hc') m hm

theorem mem_unlimited_iff {cycles : List (List String)} {m : String} :
    m ∈ d.unlimited cycles ↔ d.LacksLimit cycles m := by
  unfold unlimited LacksLimit
  rw [List.mem_flatMap]
  constructor
  · rintro ⟨c, hc, hm⟩
    split at hm
    · next hnone =>
      obtain ⟨hdefault, hall⟩ := inheritedLimit?_eq_none_iff.1 (Option.isNone_iff_eq_none.1 hnone)
      exact ⟨hdefault, c, hc, hm, hall⟩
    · simp at hm
  · rintro ⟨hdefault, c, hc, hm, hall⟩
    refine ⟨c, hc, ?_⟩
    rw [if_pos (Option.isNone_iff_eq_none.2 (inheritedLimit?_eq_none_iff.2 ⟨hdefault, hall⟩))]
    exact hm

theorem unlimited_sublist (d : Definition) (cycles : List (List String)) :
    (d.unlimited cycles).Sublist cycles.flatten := by
  unfold unlimited
  induction cycles with
  | nil => simp
  | cons c rest ih =>
    rw [List.flatMap_cons, List.flatten_cons]
    refine List.Sublist.append ?_ ih
    split
    · exact .refl _
    · exact List.nil_sublist _

theorem inheritedIn_of_not_mem {cycles : List (List String)} {m : String}
    (hm : m ∉ cycles.flatten) : d.inheritedIn cycles m = none := by
  unfold inheritedIn
  rw [List.findSome?_eq_none_iff]
  intro c hc
  exact if_neg fun hmem => hm (List.mem_flatten.2 ⟨c, hc, hmem⟩)

theorem inheritedIn_of_mem {cycles : List (List String)} (hapart : cycles.Pairwise List.Disjoint)
    {c : List String} (hc : c ∈ cycles) {m : String} (hm : m ∈ c) :
    d.inheritedIn cycles m = d.inheritedLimit? c := by
  induction cycles with
  | nil => simp at hc
  | cons first rest ih =>
    obtain ⟨hfirst, hrest⟩ := List.pairwise_cons.1 hapart
    rw [inheritedIn_cons]
    rcases List.mem_cons.1 hc with rfl | hc
    · have hnot : m ∉ rest.flatten := by
        intro hmem
        obtain ⟨c', hc', hmem⟩ := List.mem_flatten.1 hmem
        exact hfirst c' hc' hm hmem
      rw [if_pos hm, inheritedIn_of_not_mem hnot, Option.or_none]
    · rw [if_neg fun hmem => hfirst c hc hmem hm]
      exact ih hrest hc

/-! ## The assignment -/

section Assignment

variable {cycles : List (List String)} (hnodup : cycles.flatten.Nodup)
include hnodup

/-- The assignment fails with the members that lack a limit, and gives every node what it
declares or else inherits. -/
theorem assignLimits_eq : d.assignLimits cycles =
    if d.unlimited cycles = [] then .ok (cycles.foldl d.grantLimits (d.loopLimits, [])).1
    else .error (.cycleWithoutLimit (d.unlimited cycles)) := by
  have hmissing : (cycles.foldl d.grantLimits (d.loopLimits, [])).2 = d.unlimited cycles :=
    missing_grantAll (List.nodup_flatten.1 hnodup).2 fun _ _ _ _ => rfl
  unfold assignLimits
  dsimp only
  rw [hmissing]
  simp only [List.isEmpty_iff]

theorem assignLimits_eq_error_iff {e : CompileError} : d.assignLimits cycles = .error e ↔
    d.unlimited cycles ≠ [] ∧ e = .cycleWithoutLimit (d.unlimited cycles) := by
  rw [assignLimits_eq hnodup]
  split
  · next hnil => simp [hnil]
  · next hne => simp [hne, eq_comm]

theorem get?_of_assignLimits {limits : Dict Nat} (h : d.assignLimits cycles = .ok limits)
    (k : String) : limits.get? k = (d.loopLimits.get? k).or (d.inheritedIn cycles k) := by
  rw [assignLimits_eq hnodup] at h
  split at h
  · cases h
    exact get?_grantAll _ _ k
  · cases h

theorem unlimited_of_assignLimits {limits : Dict Nat} (h : d.assignLimits cycles = .ok limits) :
    d.unlimited cycles = [] := by
  rw [assignLimits_eq hnodup] at h
  split at h
  · next hnil => exact hnil
  · cases h

/-- A member of a component that declares no limit itself gets what its component inherits, and
that is a limit. -/
theorem get?_of_mem_cycle {limits : Dict Nat} (h : d.assignLimits cycles = .ok limits)
    {c : List String} (hc : c ∈ cycles) {m : String} (hm : m ∈ c)
    (hdeclared : d.loopLimits.get? m = none) :
    limits.get? m = d.inheritedLimit? c ∧ (d.inheritedLimit? c).isSome := by
  refine ⟨?_, ?_⟩
  · rw [get?_of_assignLimits hnodup h, hdeclared,
      inheritedIn_of_mem (List.nodup_flatten.1 hnodup).2 hc hm]
    rfl
  · rw [Option.isSome_iff_ne_none]
    intro hnone
    have hmem : m ∈ d.unlimited cycles := by
      obtain ⟨hdefault, hall⟩ := inheritedLimit?_eq_none_iff.1 hnone
      exact mem_unlimited_iff.2 ⟨hdefault, c, hc, hm, hall⟩
    rw [unlimited_of_assignLimits hnodup h] at hmem
    simp at hmem

theorem isSome_get?_of_mem_cycle {limits : Dict Nat} (h : d.assignLimits cycles = .ok limits)
    {c : List String} (hc : c ∈ cycles) {m : String} (hm : m ∈ c) :
    (limits.get? m).isSome := by
  cases hdeclared : d.loopLimits.get? m with
  | none =>
    obtain ⟨heq, hsome⟩ := get?_of_mem_cycle hnodup h hc hm hdeclared
    rw [heq]
    exact hsome
  | some n =>
    rw [get?_of_assignLimits hnodup h, hdeclared]
    rfl

end Assignment

/-! ## The order of components and members -/

/-- The same components, with their members and themselves in any order. -/
def Regrouped (cycles others : List (List String)) : Prop :=
  ∃ middle, cycles.Perm middle ∧ List.Forall₂ List.Perm middle others

namespace Regrouped

variable {cycles others : List (List String)} (h : Regrouped cycles others)
include h

theorem perm_flatten : cycles.flatten.Perm others.flatten := by
  obtain ⟨middle, hperm, hmembers⟩ := h
  exact hperm.flatten.trans (.flatten_congr hmembers)

theorem exists_perm {c : List String} (hc : c ∈ others) : ∃ c' ∈ cycles, c'.Perm c := by
  obtain ⟨middle, hperm, hmembers⟩ := h
  obtain ⟨c', hc', hp⟩ : ∃ c' ∈ middle, c'.Perm c := by
    clear hperm
    induction hmembers with
    | nil => simp at hc
    | cons hfirst _ ih =>
      rcases List.mem_cons.1 hc with rfl | hc
      · exact ⟨_, List.mem_cons_self, hfirst⟩
      · obtain ⟨c', hc', hp⟩ := ih hc
        exact ⟨c', List.mem_cons_of_mem _ hc', hp⟩
  exact ⟨c', hperm.mem_iff.2 hc', hp⟩

theorem inheritedIn_eq (hnodup : cycles.flatten.Nodup) (m : String) :
    d.inheritedIn others m = d.inheritedIn cycles m := by
  have hothers : others.flatten.Nodup := h.perm_flatten.nodup_iff.1 hnodup
  by_cases hm : m ∈ others.flatten
  · obtain ⟨c, hc, hmem⟩ := List.mem_flatten.1 hm
    obtain ⟨c', hc', hperm⟩ := h.exists_perm hc
    rw [inheritedIn_of_mem (List.nodup_flatten.1 hothers).2 hc hmem,
      inheritedIn_of_mem (List.nodup_flatten.1 hnodup).2 hc' (hperm.mem_iff.2 hmem),
      inheritedLimit?_eq_of_perm hperm]
  · rw [inheritedIn_of_not_mem hm,
      inheritedIn_of_not_mem fun hmem => hm (h.perm_flatten.mem_iff.1 hmem)]

theorem unlimited_perm : (d.unlimited cycles).Perm (d.unlimited others) := by
  obtain ⟨middle, hperm, hmembers⟩ := h
  refine (hperm.flatMap_right _).trans ?_
  clear hperm
  induction hmembers with
  | nil => exact .refl _
  | cons hfirst _ ih =>
    rw [unlimited, List.flatMap_cons, List.flatMap_cons, inheritedLimit?_eq_of_perm hfirst]
    refine List.Perm.append ?_ ih
    split
    · exact hfirst
    · exact .refl _

end Regrouped

/-- Where no node stands in two components, the same nodes lack a limit and the same limits are
assigned, whatever the order of the components and of their members is. -/
theorem assignLimits_regroup {cycles others : List (List String)} (h : Regrouped cycles others)
    (hnodup : cycles.flatten.Nodup) :
    (∀ limits, d.assignLimits cycles = .ok limits → ∃ same, d.assignLimits others = .ok same ∧
      ∀ m, same.get? m = limits.get? m) ∧
    ∀ missing, d.assignLimits cycles = .error (.cycleWithoutLimit missing) → ∃ same,
      d.assignLimits others = .error (.cycleWithoutLimit same) ∧ same.Perm missing := by
  have hothers : others.flatten.Nodup := h.perm_flatten.nodup_iff.1 hnodup
  constructor
  · intro limits hlimits
    have hnil : d.unlimited others = [] := by
      have hperm := h.unlimited_perm (d := d)
      rw [unlimited_of_assignLimits hnodup hlimits] at hperm
      exact hperm.nil_eq.symm
    have hassigned := assignLimits_eq hothers (d := d)
    rw [if_pos hnil] at hassigned
    refine ⟨_, hassigned, fun m => ?_⟩
    rw [get?_of_assignLimits hothers hassigned, get?_of_assignLimits hnodup hlimits,
      h.inheritedIn_eq hnodup]
  · intro missing hmissing
    obtain ⟨hne, heq⟩ := (assignLimits_eq_error_iff hnodup).1 hmissing
    cases heq
    refine ⟨d.unlimited others, (assignLimits_eq_error_iff hothers).2 ⟨fun hnil => hne ?_, rfl⟩,
      h.unlimited_perm.symm⟩
    have hperm := h.unlimited_perm (d := d)
    rw [hnil] at hperm
    exact hperm.eq_nil

end WorkflowGraph.Definition
