import Mathlib.Data.List.Duplicate
import Mathlib.Data.List.Perm.Basic
import Mathlib.Algebra.Group.Nat.Even
import WorkflowGraph.Proofs.Shape.Drafting
import WorkflowGraph.Proofs.Shape.Writes

/-!
# The types of fields

The type of a field is made up from the types that its writers carry, one after another
(`StateShape.type_of_infer`). What the writers agree on is found in every order. Where they differ,
the field should have no type (`FieldType.agreed`); but `any` is also the type of a field about
which nothing is known yet, so that the writer after a contradiction is taken for the first one. A
contradiction is kept only where every writer is part of one (`FieldType.Undone`), and in every
order of the nodes only where an even number of writers carry pairwise different types
(`FieldType.Paired`).
-/

set_option autoImplicit false

namespace WorkflowGraph

namespace FieldType

/-! ## Widening -/

/-- The type of a field after a further writer that carries a type. -/
def widen (current t : FieldType) : FieldType := FieldSpec.joinType current (some t)

/-- The type that writers with these types lead to, in their order. -/
def widened (ts : List FieldType) : FieldType := ts.foldl widen .any

/-- The type that these types agree on: the one that all of them are, if there is one. -/
def agreed : List FieldType → FieldType
  | [] => .any
  | t :: rest => if ∀ u ∈ rest, u = t then t else .any

/-- Whether no two of the types differ. -/
def AllSame (ts : List FieldType) : Prop := ∀ t ∈ ts, ∀ u ∈ ts, t = u

/-- Whether the types are an even number of types other than `any`, no two of them the same. -/
def Paired (ts : List FieldType) : Prop := .any ∉ ts ∧ ts.Nodup ∧ Even ts.length

/-- Whether the types come in runs, each of one type and ended by another one. -/
inductive Undone : List FieldType → Prop where
  | nil : Undone []
  | any {ts : List FieldType} (h : Undone ts) : Undone (.any :: ts)
  | run {t u : FieldType} {ts : List FieldType} (n : Nat) (ht : t ≠ .any) (hu : u ≠ t)
    (h : Undone ts) : Undone (t :: (List.replicate n t ++ u :: ts))

variable {t u s : FieldType} {ts us : List FieldType}

@[simp] theorem widen_any (t : FieldType) : widen .any t = t := rfl

@[simp] theorem widen_self (t : FieldType) : widen t t = t := by
  simp [widen, FieldSpec.joinType]

theorem widen_of_ne (ht : t ≠ .any) (hu : u ≠ t) : widen t u = .any := by
  simp [widen, FieldSpec.joinType, ht, Ne.symm hu]

/-- A type that is not known stays so, and one that is known is forgotten. -/
@[simp] theorem widen_to_any (t : FieldType) : widen t .any = .any := by
  by_cases ht : t = .any
  · rw [ht, widen_any]
  · exact widen_of_ne ht (Ne.symm ht)

theorem widen_eq_any_or_eq (t u : FieldType) : widen t u = .any ∨ widen t u = u := by
  by_cases ht : t = .any
  · exact .inr (by rw [ht, widen_any])
  · by_cases hu : u = t
    · exact .inr (by rw [hu, widen_self])
    · exact .inl (widen_of_ne ht hu)

theorem foldl_widen_replicate (t : FieldType) (n : Nat) :
    (List.replicate n t).foldl widen t = t := by
  induction n with
  | zero => rfl
  | succ n ih => rw [List.replicate_succ, List.foldl_cons, widen_self, ih]

/-! ## Types that are the same -/

theorem allSame_iff_exists : AllSame ts ↔ ∃ t n, ts = List.replicate n t := by
  constructor
  · intro h
    cases ts with
    | nil => exact ⟨.any, 0, rfl⟩
    | cons t rest =>
      refine ⟨t, (t :: rest).length, List.eq_replicate_iff.2 ⟨rfl, fun u hu => ?_⟩⟩
      exact h u hu t List.mem_cons_self
  · rintro ⟨t, n, rfl⟩ u hu v hv
    rw [List.eq_of_mem_replicate hu, List.eq_of_mem_replicate hv]

theorem agreed_replicate (t : FieldType) (n : Nat) : agreed (List.replicate (n + 1) t) = t := by
  rw [List.replicate_succ, agreed, if_pos fun u hu => List.eq_of_mem_replicate hu]

theorem agreed_of_not_allSame (h : ¬AllSame ts) : agreed ts = .any := by
  cases ts with
  | nil => rfl
  | cons t rest =>
    rw [agreed, if_neg]
    intro hrest
    have hall : ∀ u ∈ t :: rest, u = t := List.forall_mem_cons.2 ⟨rfl, hrest⟩
    exact h fun u hu v hv => (hall u hu).trans (hall v hv).symm

theorem widened_of_allSame (h : AllSame ts) : widened ts = agreed ts := by
  obtain ⟨t, n, rfl⟩ := allSame_iff_exists.1 h
  cases n with
  | zero => rfl
  | succ n =>
    rw [agreed_replicate, widened, List.replicate_succ, List.foldl_cons, widen_any,
      foldl_widen_replicate]

theorem AllSame.perm (h : AllSame ts) (hperm : us.Perm ts) : AllSame us :=
  fun t ht u hu => h t (hperm.mem_iff.1 ht) u (hperm.mem_iff.1 hu)

theorem agreed_perm (hperm : us.Perm ts) : agreed us = agreed ts := by
  by_cases h : AllSame ts
  · obtain ⟨t, n, rfl⟩ := allSame_iff_exists.1 h
    rw [List.perm_replicate.1 hperm]
  · rw [agreed_of_not_allSame h, agreed_of_not_allSame fun hus => h (hus.perm hperm.symm)]

/-! ## Types that contradict each other -/

theorem widened_run (n : Nat) (ht : t ≠ .any) (hu : u ≠ t) (ts : List FieldType) :
    widened (t :: (List.replicate n t ++ u :: ts)) = widened ts := by
  rw [widened, List.foldl_cons, widen_any, List.foldl_append, foldl_widen_replicate,
    List.foldl_cons, widen_of_ne ht hu, ← widened]

/-- A list that starts with a type is a run of this type, or goes on behind such a run. -/
theorem eq_replicate_or_run (t : FieldType) (ts : List FieldType) :
    (∃ n, ts = List.replicate n t) ∨
      ∃ n u rest, u ≠ t ∧ ts = List.replicate n t ++ u :: rest := by
  induction ts with
  | nil => exact .inl ⟨0, rfl⟩
  | cons u rest ih =>
    by_cases hu : u = t
    · subst hu
      rcases ih with ⟨n, rfl⟩ | ⟨n, v, more, hv, rfl⟩
      · exact .inl ⟨n + 1, rfl⟩
      · exact .inr ⟨n + 1, v, more, hv, rfl⟩
    · exact .inr ⟨0, u, rest, hu, rfl⟩

/-- **The type is not known in the end if and only if every run has been contradicted.** By
induction on the number of types, of which the first run is taken off. -/
theorem widened_eq_any_iff : widened ts = .any ↔ Undone ts := by
  constructor
  · intro h
    induction hlength : ts.length using Nat.strong_induction_on generalizing ts with
    | _ k ih =>
      subst hlength
      cases ts with
      | nil => exact .nil
      | cons t rest =>
        by_cases ht : t = .any
        · subst ht
          exact .any (ih rest.length (by simp) h rfl)
        · rcases eq_replicate_or_run t rest with ⟨n, rfl⟩ | ⟨n, u, more, hu, rfl⟩
          · rw [widened, List.foldl_cons, widen_any, foldl_widen_replicate] at h
            exact absurd h ht
          · rw [widened_run n ht hu] at h
            have hlt : more.length < (t :: (List.replicate n t ++ u :: more)).length := by
              simp only [List.length_cons, List.length_append]
              omega
            exact .run n ht hu (ih more.length hlt h rfl)
  · intro h
    induction h with
    | nil => rfl
    | any _ ih => exact ih
    | run n ht hu _ ih => rw [widened_run n ht hu, ih]

theorem widened_eq_agreed_iff : widened ts = agreed ts ↔ AllSame ts ∨ Undone ts := by
  by_cases h : AllSame ts
  · simp [h, widened_of_allSame h]
  · rw [agreed_of_not_allSame h, widened_eq_any_iff, or_iff_right h]

/-! ## Every order -/

/-- Types that are pairwise different are contradicted in pairs. -/
theorem undone_of_paired (h : Paired ts) : Undone ts := by
  obtain ⟨hany, hnodup, heven⟩ := h
  induction hlength : ts.length using Nat.strong_induction_on generalizing ts with
  | _ k ih =>
    subst hlength
    match ts with
    | [] => exact .nil
    | [t] => simp at heven
    | t :: u :: rest =>
      have ht : t ≠ .any := fun heq => hany (by simp [heq])
      have hu : u ≠ t := fun heq => by simp [heq] at hnodup
      have hrest : .any ∉ rest := fun hmem => hany (by simp [hmem])
      have hlt : rest.length < (t :: u :: rest).length := by
        simp only [List.length_cons]
        omega
      refine .run 0 ht hu (ih rest.length hlt hrest ?_ ?_ rfl)
      · exact (List.nodup_cons.1 (List.nodup_cons.1 hnodup).2).2
      · simpa [Nat.even_add_one] using heven

/-- Of an odd number of pairwise different types, the last one is taken. -/
theorem even_of_undone (hany : .any ∉ ts) (hnodup : ts.Nodup) (h : Undone ts) :
    Even ts.length := by
  induction h with
  | nil => simp
  | any => simp at hany
  | @run t u ts n ht hu _ ih =>
    cases n with
    | zero =>
      have hrest : Even ts.length := by
        refine ih (fun hmem => hany (by simp [hmem])) ?_
        exact (List.nodup_cons.1 (List.nodup_cons.1 hnodup).2).2
      simpa [Nat.even_add_one] using hrest
    | succ n => simp [List.replicate_succ] at hnodup

/-- Two writers of one type, with another one between them or before them, leave this type, whatever
has been known. -/
theorem exists_order_of_twice (ht : t ≠ .any) (hu : u ≠ .any) (hne : u ≠ t) (s : FieldType) :
    [t, u, t].foldl widen s = t ∨ [u, t, t].foldl widen s = t := by
  by_cases hs : s = .any ∨ s = t
  · left
    have hfirst : widen s t = t := by
      rcases hs with rfl | rfl
      · exact widen_any t
      · exact widen_self s
    simp only [List.foldl_cons, List.foldl_nil, hfirst, widen_of_ne ht hne, widen_any]
  · right
    rw [not_or] at hs
    by_cases hsu : u = s
    · subst hsu
      simp only [List.foldl_cons, List.foldl_nil, widen_self, widen_of_ne hu (Ne.symm hne),
        widen_any]
    · simp only [List.foldl_cons, List.foldl_nil, widen_of_ne hs.1 hsu, widen_any, widen_self]

/-- Whether the types lead to the same type in every order. -/
def Steady (ts : List FieldType) : Prop :=
  ∀ us : List FieldType, us.Perm ts → widened us = widened ts

theorem widened_append (ts us : List FieldType) :
    widened (ts ++ us) = us.foldl widen (widened ts) := by
  rw [widened, List.foldl_append, ← widened]

theorem Paired.perm (h : Paired ts) (hperm : us.Perm ts) : Paired us := by
  obtain ⟨hany, hnodup, heven⟩ := h
  refine ⟨fun hmem => hany (hperm.mem_iff.1 hmem), hperm.nodup_iff.2 hnodup, ?_⟩
  rwa [hperm.length_eq]

theorem widened_perm (h : AllSame ts ∨ Paired ts) (hperm : us.Perm ts) :
    widened us = agreed ts := by
  rw [← agreed_perm hperm, widened_eq_agreed_iff]
  exact h.imp (fun h => h.perm hperm) fun h => undone_of_paired (h.perm hperm)

theorem exists_ne_of_not_allSame (h : ¬AllSame ts) (t : FieldType) : ∃ u ∈ ts, u ≠ t := by
  by_contra hnone
  push Not at hnone
  exact h fun u hu v hv => (hnone u hu).trans (hnone v hv).symm

/-- The last writer decides unless it contradicts, so that nothing is known in every order. -/
theorem Steady.widened_eq_any (h : Steady ts) (hdiffer : ¬AllSame ts) : widened ts = .any := by
  obtain ⟨z, hz, hne⟩ := exists_ne_of_not_allSame hdiffer (widened ts)
  obtain ⟨front, back, rfl⟩ := List.append_of_mem hz
  have hlast := h (front ++ back ++ [z])
    ((List.perm_append_singleton z _).trans List.perm_middle.symm)
  rw [widened_append, List.foldl_cons, List.foldl_nil] at hlast
  rcases widen_eq_any_or_eq (widened (front ++ back)) z with hany | heq
  · rw [← hlast, hany]
  · exact absurd (heq.symm.trans hlast) hne

/-- Any order ends with what some of the types lead to in their order. -/
theorem Steady.foldl_eq (h : Steady ts) {front rest : List FieldType}
    (hperm : ts.Perm (front ++ rest)) : front.foldl widen (widened rest) = widened ts := by
  rw [← widened_append]
  exact h _ (List.perm_append_comm.trans hperm.symm)

theorem Steady.any_not_mem (h : Steady ts) (hdiffer : ¬AllSame ts) : .any ∉ ts := by
  intro hany
  obtain ⟨t, ht, hne⟩ := exists_ne_of_not_allSame hdiffer .any
  have hrest : t ∈ ts.erase .any := (List.mem_erase_of_ne hne).2 ht
  have hperm : ts.Perm ([.any, t] ++ (ts.erase .any).erase t) :=
    (List.perm_cons_erase hany).trans ((List.perm_cons_erase hrest).cons _)
  have hlast := h.foldl_eq hperm
  rw [h.widened_eq_any hdiffer, List.foldl_cons, List.foldl_cons, List.foldl_nil, widen_to_any,
    widen_any] at hlast
  exact hne hlast

theorem Steady.nodup (h : Steady ts) (hdiffer : ¬AllSame ts) : ts.Nodup := by
  by_contra htwice
  obtain ⟨t, ht⟩ := List.exists_duplicate_iff_not_nodup.2 htwice
  obtain ⟨rest, hperm⟩ := (List.duplicate_iff_sublist.1 ht).exists_perm_append
  obtain ⟨u, hu, hne⟩ := exists_ne_of_not_allSame hdiffer t
  have hrest : u ∈ rest := by simpa [hne] using hperm.mem_iff.1 hu
  have hfirst : ts.Perm ([t, u, t] ++ rest.erase u) := by
    refine hperm.trans (((List.perm_cons_erase hrest).append_left [t, t]).trans ?_)
    exact (List.Perm.swap u t _).cons t
  have hsecond : ts.Perm ([u, t, t] ++ rest.erase u) := hfirst.trans (List.Perm.swap u t _)
  have hany := h.any_not_mem hdiffer
  have htAny : t ≠ .any := fun heq => hany (heq ▸ ht.mem)
  have huAny : u ≠ .any := fun heq => hany (heq ▸ hu)
  have hnone := h.widened_eq_any hdiffer
  rcases exists_order_of_twice htAny huAny hne (widened (rest.erase u)) with horder | horder
  · exact htAny (horder.symm.trans ((h.foldl_eq hfirst).trans hnone))
  · exact htAny (horder.symm.trans ((h.foldl_eq hsecond).trans hnone))

/-- **The order of the writers does not matter if and only if all of their types are the same, or
they are pairwise different, none of them `any`, and even in number.** -/
theorem steady_iff : Steady ts ↔ AllSame ts ∨ Paired ts := by
  constructor
  · intro h
    by_cases hsame : AllSame ts
    · exact .inl hsame
    · have hundone := widened_eq_any_iff.1 (h.widened_eq_any hsame)
      have hany := h.any_not_mem hsame
      have hnodup := h.nodup hsame
      exact .inr ⟨hany, hnodup, even_of_undone hany hnodup hundone⟩
  · intro h us hperm
    rw [widened_perm h hperm, widened_perm h (List.Perm.refl ts)]

end FieldType

/-! ## Writers and their types -/

namespace FieldUse

/-- The types that the writers of a field carry, in their order. -/
def typesOf (uses : List FieldUse) (field : String) : List FieldType :=
  (uses.filter fun u => !u.isRead && u.field == field).filterMap FieldUse.type

variable {uses : List FieldUse} {u : FieldUse} {field : String}

theorem typesOf_append (uses more : List FieldUse) (field : String) :
    typesOf (uses ++ more) field = typesOf uses field ++ typesOf more field := by
  simp [typesOf]

theorem typesOf_single_of_writes (h : u.Writes field) : typesOf [u] field = u.type.toList := by
  obtain ⟨hread, rfl⟩ := h
  cases htype : u.type <;> simp [typesOf, hread, htype]

theorem typesOf_single_of_not (h : ¬u.Writes field) : typesOf [u] field = [] := by
  have hnot : (!u.isRead && u.field == field) = false := by
    by_contra htrue
    exact h (by simpa [Writes] using htrue)
  simp [typesOf, hnot]

theorem typesOf_of_reads (h : ∀ u ∈ uses, u.isRead = true) : typesOf uses field = [] := by
  have hnone : (uses.filter fun u => !u.isRead && u.field == field) = [] := by
    refine List.filter_eq_nil_iff.2 fun u hu => ?_
    simp [h u hu]
  rw [typesOf, hnone, List.filterMap_nil]

/-- Putting the writes first leaves them in their order. -/
theorem typesOf_writesFirst (uses : List FieldUse) (field : String) :
    typesOf (StateShape.writesFirst uses) field = typesOf uses field := by
  rw [StateShape.writesFirst, typesOf_append, typesOf_of_reads fun u hu => (List.mem_filter.1 hu).2,
    List.append_nil, typesOf, List.filter_filter]
  congr 2
  funext u
  cases u.isRead <;> simp

end FieldUse

/-- What is read carries no type. By induction on the kind, because a map also reads what its inner
node reads. -/
theorem NodeDecl.type_of_read {messagesField : String} (kind : NodeKind) {id : String}
    {options : NodeOptions} {u : FieldUse} (hu : u ∈ NodeDecl.uses messagesField id options kind)
    (hread : u.isRead = true) : u.type = none := by
  induction kind generalizing id options <;>
    grind [NodeDecl.uses, NodeDecl.uses.required, NodeDecl.inputReads, FieldUse.isRead,
      FieldUse.output, FieldUse.implicit, FieldUse.input]

namespace Definition

variable {d : Definition}

/-- The types that the writers of a field carry, in the order in which they are declared. -/
def typesOf (d : Definition) (field : String) : List FieldType := FieldUse.typesOf d.uses field

/-- The types that one node carries for a field. -/
def nodeTypes (d : Definition) (field : String) (n : NodeDecl) : List FieldType :=
  FieldUse.typesOf (NodeDecl.uses d.defaults.messagesField n.id n.options n.kind) field

/-- Conditions only read. -/
theorem reads_of_condition (e : EdgeDecl) :
    ∀ u ∈ e.condition.toList.flatMap fun c =>
      (Condition.pathsOf c).map fun path => FieldUse.input path e.source,
    u.isRead = true ∧ u.type = none := by
  intro u hu
  obtain ⟨c, _, hu⟩ := List.mem_flatMap.1 hu
  obtain ⟨path, _, rfl⟩ := List.mem_map.1 hu
  exact ⟨rfl, rfl⟩

theorem type_of_read {u : FieldUse} (hu : u ∈ d.uses) (hread : u.isRead = true) :
    u.type = none := by
  rcases List.mem_append.1 hu with hu | hu
  · obtain ⟨n, _, hu⟩ := List.mem_flatMap.1 hu
    exact NodeDecl.type_of_read n.kind hu hread
  · obtain ⟨e, _, hu⟩ := List.mem_flatMap.1 hu
    exact (reads_of_condition e u hu).2

theorem typesOf_eq (d : Definition) (field : String) :
    d.typesOf field = d.nodes.flatMap (d.nodeTypes field) := by
  have hconditions : FieldUse.typesOf (d.edges.flatMap fun e => e.condition.toList.flatMap fun c =>
      (Condition.pathsOf c).map fun path => FieldUse.input path e.source) field = [] := by
    refine FieldUse.typesOf_of_reads fun u hu => ?_
    obtain ⟨e, _, hu⟩ := List.mem_flatMap.1 hu
    exact (reads_of_condition e u hu).1
  rw [typesOf, uses, FieldUse.typesOf_append, hconditions, List.append_nil]
  induction d.nodes with
  | nil => rfl
  | cons n rest ih =>
    rw [List.flatMap_cons, FieldUse.typesOf_append, ih, List.flatMap_cons, nodeTypes]

end Definition

namespace StateShape

open FieldType

variable {d : Definition} {shape : StateShape} {field : String} {spec : FieldSpec}

/-- Whether the types in a draft without errors are those that its writers lead to. -/
def Draft.Typed (draft : Draft) (seen : List FieldUse) : Prop :=
  draft.errors = [] → ∀ field,
    (Dict.get? draft.fields field).elim .any FieldSpec.type = widened (FieldUse.typesOf seen field)

/-- A draft in which the entry of the used field is as it should be is right. -/
theorem Draft.Typed.put {draft : Draft} {seen : List FieldUse} {u : FieldUse}
    (h : draft.Typed seen) {new : FieldSpec}
    (hnew : draft.errors = [] → new.type = widened (FieldUse.typesOf (seen ++ [u]) u.field)) :
    Draft.Typed { draft with fields := Dict.put draft.fields u.field new } (seen ++ [u]) := by
  intro herrors field
  dsimp only at herrors ⊢
  rw [Dict.get?_put]
  split
  · next hfield =>
    subst hfield
    exact hnew herrors
  · next hfield =>
    have hother : ¬u.Writes field := fun hw => hfield hw.2
    rw [h herrors field, FieldUse.typesOf_append, FieldUse.typesOf_single_of_not hother,
      List.append_nil]

/-- One use more is taken into account. -/
theorem Draft.Typed.add {draft : Draft} {seen : List FieldUse} {u : FieldUse}
    (h : draft.Typed seen) (hread : u.isRead = true → u.type = none) :
    (draft.add u).Typed (seen ++ [u]) := by
  have hjoin (hu : u.isRead = false) :
      widened (FieldUse.typesOf (seen ++ [u]) u.field) =
        FieldSpec.joinType (widened (FieldUse.typesOf seen u.field)) u.type := by
    rw [FieldUse.typesOf_append, FieldUse.typesOf_single_of_writes ⟨hu, rfl⟩, widened_append]
    cases u.type <;> rfl
  have hkeep (hu : u.isRead = true) (field : String) :
      FieldUse.typesOf (seen ++ [u]) field = FieldUse.typesOf seen field := by
    have hnot : ¬u.Writes field := fun hw => Bool.false_ne_true (hw.1.symm.trans hu)
    rw [FieldUse.typesOf_append, FieldUse.typesOf_single_of_not hnot, List.append_nil]
  unfold Draft.add
  split
  · next hnone =>
    refine h.put fun herrors => ?_
    have hseen := h herrors u.field
    rw [hnone, Option.elim_none] at hseen
    cases hu : u.isRead with
    | false =>
      rw [hjoin hu, ← hseen]
      cases htype : u.type <;> simp [FieldSpec.ofUse, FieldSpec.joinType, htype]
    | true =>
      rw [hkeep hu, ← hseen]
      simp [FieldSpec.ofUse, hread hu]
  · next old hold =>
    split
    · next hu =>
      intro herrors field
      rw [hkeep hu, h herrors field]
    · next hu =>
      split
      · intro herrors
        simp at herrors
      · refine h.put fun herrors => ?_
        have hseen := h herrors u.field
        rw [hold, Option.elim_some] at hseen
        rw [hjoin (by simpa using hu), ← hseen]
        rfl

/-- By induction on the uses, of which each is added to those that have been seen. -/
theorem Draft.Typed.foldl {draft : Draft} {seen uses : List FieldUse} (h : draft.Typed seen)
    (hread : ∀ u ∈ uses, u.isRead = true → u.type = none) :
    (uses.foldl Draft.add draft).Typed (seen ++ uses) := by
  induction uses generalizing draft seen with
  | nil => rwa [List.append_nil]
  | cons u rest ih =>
    rw [List.append_cons]
    exact ih (h.add (hread u List.mem_cons_self)) fun v hv => hread v (List.mem_cons_of_mem _ hv)

/-- **The type of a field is the one that the types of its writers lead to**, in the order in which
they are declared. -/
theorem type_of_infer (h : infer d = .ok shape) (hspec : shape.get? field = some spec) :
    spec.type = widened (d.typesOf field) := by
  have hnil : Draft.Typed ⟨[], []⟩ [] := fun _ _ => rfl
  have htyped : Draft.Typed _ ([] ++ writesFirst d.uses) :=
    hnil.foldl fun u hu => Definition.type_of_read (mem_writesFirst.1 hu)
  rw [infer_eq] at h
  dsimp only at h
  split at h
  · next hempty =>
    cases h
    have htype := htyped (List.isEmpty_iff.1 hempty) field
    rw [List.nil_append, FieldUse.typesOf_writesFirst] at htype
    unfold get? at hspec
    rw [hspec] at htype
    exact htype
  · cases h

/-! ## Orders of nodes -/

section Orders

variable {ns : List NodeDecl}

theorem mem_uses_reorder (hperm : ns.Perm d.nodes) (u : FieldUse) :
    u ∈ ({ d with nodes := ns } : Definition).uses ↔ u ∈ d.uses := by
  unfold Definition.uses
  rw [List.mem_append, List.mem_append]
  exact or_congr_left (hperm.flatMap_right _).mem_iff

theorem typesOf_reorder (hperm : ns.Perm d.nodes) (field : String) :
    (({ d with nodes := ns } : Definition).typesOf field).Perm (d.typesOf field) := by
  rw [Definition.typesOf_eq, Definition.typesOf_eq]
  exact hperm.flatMap_right _

/-- The order of the nodes does not matter to whether a shape is inferred, nor to its fields. -/
theorem exists_infer_reorder (h : infer d = .ok shape) (hspec : shape.get? field = some spec)
    (hperm : ns.Perm d.nodes) :
    ∃ other entry, infer { d with nodes := ns } = .ok other ∧ other.get? field = some entry := by
  have hagree : FieldUse.Agree ({ d with nodes := ns } : Definition).uses := by
    intro u hu v hv
    exact infer_ok_iff.1 ⟨shape, h⟩ u ((mem_uses_reorder hperm u).1 hu) v
      ((mem_uses_reorder hperm v).1 hv)
  obtain ⟨other, hother⟩ := infer_ok_iff.2 hagree
  obtain ⟨u, hu, hfield⟩ := (isSome_get?_iff h).1 (Option.isSome_iff_exists.2 ⟨spec, hspec⟩)
  obtain ⟨entry, hentry⟩ := Option.isSome_iff_exists.1
    ((isSome_get?_iff hother).2 ⟨u, (mem_uses_reorder hperm u).2 hu, hfield⟩)
  exact ⟨other, entry, hother, hentry⟩

/-- Where every node carries one type at most, every order of the types is one of the nodes. By
induction on the types, each of which is carried by some node. -/
theorem exists_reorder {f : NodeDecl → List FieldType} {nodes : List NodeDecl} {us : List FieldType}
    (hone : ∀ n ∈ nodes, (f n).length ≤ 1) (hperm : us.Perm (nodes.flatMap f)) :
    ∃ ns : List NodeDecl, ns.Perm nodes ∧ ns.flatMap f = us := by
  induction us generalizing nodes with
  | nil => exact ⟨nodes, List.Perm.refl _, hperm.symm.eq_nil⟩
  | cons t rest ih =>
    obtain ⟨n, hn, ht⟩ := List.mem_flatMap.1 (hperm.mem_iff.1 List.mem_cons_self)
    obtain ⟨front, back, rfl⟩ := List.append_of_mem hn
    have hsingle : f n = [t] := by
      obtain ⟨u, hu⟩ := List.length_eq_one_iff.1
        (le_antisymm (hone n hn) (List.length_pos_of_mem ht))
      rw [hu] at ht ⊢
      rw [List.mem_singleton.1 ht]
    have hmiddle : (front ++ n :: back).Perm (n :: (front ++ back)) := List.perm_middle
    have hcarried : (t :: rest).Perm (t :: (front ++ back).flatMap f) := by
      refine hperm.trans ((hmiddle.flatMap_right f).trans ?_)
      rw [List.flatMap_cons, hsingle]
      exact List.Perm.refl _
    obtain ⟨ns, hns, heq⟩ := ih (fun m hm => hone m (by grind)) hcarried.cons_inv
    refine ⟨n :: ns, (hns.cons n).trans hmiddle.symm, ?_⟩
    rw [List.flatMap_cons, hsingle, heq, List.singleton_append]

end Orders

/-- **Types of fields, and orders of declarations.** The type of a field is the one that its writers
agree on, or `any` where they do not, if and only if the types that they carry are all the same, or
come in runs each of which is ended by another type. Permuted nodes lead to a shape again, with the
same type if all types are the same, or if they are pairwise different, none of them `any`, and even
in number. Where every node carries one type for the field at most, in all other cases some order of
the nodes leads to another type. -/
theorem types_of_writers_iff (h : infer d = .ok shape) (hspec : shape.get? field = some spec) :
    (spec.type = agreed (d.typesOf field) ↔ AllSame (d.typesOf field) ∨ Undone (d.typesOf field)) ∧
    (∀ ns : List NodeDecl, ns.Perm d.nodes → ∃ other entry,
      infer { d with nodes := ns } = .ok other ∧ other.get? field = some entry ∧
        (AllSame (d.typesOf field) ∨ Paired (d.typesOf field) →
          entry.type = agreed (d.typesOf field))) ∧
    ((∀ n ∈ d.nodes, (d.nodeTypes field n).length ≤ 1) →
      ((∀ ns : List NodeDecl, ns.Perm d.nodes → ∀ other entry,
          infer { d with nodes := ns } = .ok other → other.get? field = some entry →
            entry.type = spec.type) ↔
        AllSame (d.typesOf field) ∨ Paired (d.typesOf field))) := by
  have htype := type_of_infer h hspec
  refine ⟨by rw [htype, widened_eq_agreed_iff], fun ns hperm => ?_, fun hone => ?_⟩
  · obtain ⟨other, entry, hother, hentry⟩ := exists_infer_reorder h hspec hperm
    refine ⟨other, entry, hother, hentry, fun hsteady => ?_⟩
    rw [type_of_infer hother hentry, widened_perm hsteady (typesOf_reorder hperm field)]
  · rw [← steady_iff]
    constructor
    · intro hsame us hus
      rw [Definition.typesOf_eq] at hus
      obtain ⟨ns, hperm, heq⟩ := exists_reorder hone hus
      obtain ⟨other, entry, hother, hentry⟩ := exists_infer_reorder h hspec hperm
      have hmade := type_of_infer hother hentry
      have htypes : ({ d with nodes := ns } : Definition).typesOf field = us := by
        rw [Definition.typesOf_eq]
        exact heq
      rw [← htypes, ← hmade, ← htype]
      exact hsame ns hperm other entry hother hentry
    · intro hsteady ns hperm other entry hother hentry
      rw [type_of_infer hother hentry, htype]
      exact hsteady _ (typesOf_reorder hperm field)

end StateShape

/-! ## Three writers -/

/-- A node that makes a call and writes its result to the field `v`, with a type. -/
def typedWriter (id : String) (type : FieldType) : NodeDecl :=
  ⟨id, .transform ⟨some id, none, [], []⟩,
    { NodeOptions.unset with output := some "v", outputType := some type }⟩

/-- Three such nodes one after another, declared in some order. -/
def writersInTurn (nodes : List NodeDecl) : Definition where
  version := none
  name := "typed"
  description := none
  entry := some "a"
  defaults := .standard
  tools := []
  nodes := nodes
  edges := [⟨"a", .one "b", none⟩, ⟨"b", .one "c", none⟩, ⟨"c", .one "END", none⟩]
  loopLimits := []
  checkpoint := none

/-- The shape of their state. -/
def writtenShape (type : FieldType) (writers : List String) : StateShape :=
  ⟨[("v", ⟨type, .overwrite, writers, .output⟩)]⟩

/-- The third of three writers is taken for the first one: the types differ, and the field has the
type of the last one. Where another node is declared last, the field has no type. -/
theorem third_writer_hides_difference :
    (StateShape.infer (writersInTurn
        [typedWriter "a" .string, typedWriter "b" .integer, typedWriter "c" .integer]) =
      .ok (writtenShape .integer ["a", "b", "c"])) ∧
    (writersInTurn [typedWriter "a" .string, typedWriter "b" .integer,
      typedWriter "c" .integer]).typesOf "v" = [.string, .integer, .integer] ∧
    FieldType.agreed [.string, .integer, .integer] = .any ∧
    (StateShape.infer (writersInTurn
        [typedWriter "b" .integer, typedWriter "c" .integer, typedWriter "a" .string]) =
      .ok (writtenShape .any ["b", "c", "a"])) := by
  refine ⟨?_, ?_, ?_, ?_⟩ <;> decide +kernel

/-- Three writers of one type lead to this type, also where the first one is declared last. -/
theorem three_writers_agree :
    (StateShape.infer (writersInTurn
        [typedWriter "a" .string, typedWriter "b" .string, typedWriter "c" .string]) =
      .ok (writtenShape .string ["a", "b", "c"])) ∧
    FieldType.agreed [.string, .string, .string] = .string ∧
    ∃ other entry, StateShape.infer (writersInTurn
        [typedWriter "b" .string, typedWriter "c" .string, typedWriter "a" .string]) = .ok other ∧
      other.get? "v" = some entry ∧ entry.type = .string := by
  have hinfer : StateShape.infer (writersInTurn
      [typedWriter "a" .string, typedWriter "b" .string, typedWriter "c" .string]) =
      .ok (writtenShape .string ["a", "b", "c"]) := by decide +kernel
  have htypes : (writersInTurn [typedWriter "a" .string, typedWriter "b" .string,
      typedWriter "c" .string]).typesOf "v" = [.string, .string, .string] := by decide +kernel
  have hspec : (writtenShape .string ["a", "b", "c"]).get? "v" =
      some ⟨.string, .overwrite, ["a", "b", "c"], .output⟩ := rfl
  have hsame : FieldType.AllSame [.string, .string, .string] :=
    FieldType.allSame_iff_exists.2 ⟨.string, 3, rfl⟩
  have hperm := List.perm_append_singleton (typedWriter "a" .string)
    [typedWriter "b" .string, typedWriter "c" .string]
  obtain ⟨other, entry, hother, hentry, htype⟩ :=
    (StateShape.types_of_writers_iff hinfer hspec).2.1 _ hperm
  rw [htypes] at htype
  exact ⟨hinfer, rfl, other, entry, hother, hentry, htype (.inl hsame)⟩

end WorkflowGraph
