import WorkflowGraph.Shape.Inference
import WorkflowGraph.Proofs.Dict

/-!
# What an inferred shape says

A shape is drafted from the writes and then from the reads of a definition. The draft reflects what
has been looked at so far (`StateShape.Draft.Reflects`): it knows the fields that are used, lists
the nodes that write a field, merges it as its writes say, and has found an error exactly if two
writes of one field disagree. So a shape is inferred if and only if all writes agree
(`StateShape.infer_ok_iff`), and reads leave what it says of written fields alone.
-/

set_option autoImplicit false

namespace WorkflowGraph

namespace FieldUse

/-- Whether a use is a write of a field. -/
def Writes (u : FieldUse) (field : String) : Prop := u.isRead = false ∧ u.field = field

/-- Whether no two writes of one field are to be merged differently. -/
def Agree (uses : List FieldUse) : Prop :=
  ∀ u ∈ uses, ∀ v ∈ uses, ∀ field, u.Writes field → v.Writes field → u.merge = v.merge

variable {uses seen : List FieldUse} {u : FieldUse} {field : String}

theorem exists_mem_append {P : FieldUse → Prop} :
    (∃ v ∈ seen ++ [u], P v) ↔ (∃ v ∈ seen, P v) ∨ P u := by
  simp [or_and_right, exists_or]

theorem forall_mem_append {P : FieldUse → Prop} :
    (∀ v ∈ seen ++ [u], P v) ↔ (∀ v ∈ seen, P v) ∧ P u := by
  simp [or_imp, forall_and]

/-- One use more agrees with those before if each write before of the same field does. -/
theorem agree_append_iff : Agree (seen ++ [u]) ↔
    Agree seen ∧ ∀ v ∈ seen, ∀ field, v.Writes field → u.Writes field → v.merge = u.merge := by
  constructor
  · intro h
    exact ⟨fun v hv w hw => h v (List.mem_append_left _ hv) w (List.mem_append_left _ hw),
      fun v hv => h v (List.mem_append_left _ hv) u List.mem_concat_self⟩
  · rintro ⟨h, hu⟩
    refine forall_mem_append.2 ⟨fun v hv => forall_mem_append.2 ⟨h v hv, hu v hv⟩,
      forall_mem_append.2 ⟨fun v hv field hw hw' => (hu v hv field hw' hw).symm, ?_⟩⟩
    exact fun _ _ _ => rfl

end FieldUse

namespace StateShape

open FieldUse

/-- Whether an entry says of a field what some uses amount to. -/
structure Entry (uses : List FieldUse) (field : String) (spec : FieldSpec) : Prop where
  writers : ∀ node, node ∈ spec.writers ↔ ∃ u ∈ uses, u.Writes field ∧ u.node = node
  merge : ∀ u ∈ uses, u.Writes field → spec.merge = u.merge
  unwritten : (∀ u ∈ uses, ¬u.Writes field) → spec.merge = .overwrite

/-- Whether a draft is what some uses lead to. -/
structure Draft.Reflects (draft : Draft) (seen : List FieldUse) : Prop where
  errors : draft.errors = [] ↔ Agree seen
  known : ∀ field, (Dict.get? draft.fields field).isSome ↔ ∃ u ∈ seen, u.field = field
  entry : Agree seen → ∀ field spec, Dict.get? draft.fields field = some spec →
    Entry seen field spec

variable {draft : Draft} {seen uses : List FieldUse} {u : FieldUse} {field : String}
  {spec : FieldSpec}

/-- A use that writes another field, or none, does not matter to an entry. -/
theorem Entry.append_of_not (h : Entry seen field spec) (hu : ¬u.Writes field) :
    Entry (seen ++ [u]) field spec where
  writers node := by
    rw [h.writers, exists_mem_append]
    simp [hu]
  merge := forall_mem_append.2 ⟨h.merge, fun hw => absurd hw hu⟩
  unwritten hnone := h.unwritten (forall_mem_append.1 hnone).1

/-- The entry that the first use of a field makes. -/
theorem entry_ofUse (hfirst : ∀ v ∈ seen, v.field ≠ u.field)
    (hread : u.isRead = true → u.merge = .overwrite) :
    Entry (seen ++ [u]) u.field (.ofUse u) where
  writers node := by
    have hseen : ¬∃ v ∈ seen, v.Writes u.field ∧ v.node = node :=
      fun ⟨v, hv, hw, _⟩ => hfirst v hv hw.2
    rw [exists_mem_append, or_iff_right hseen]
    cases hu : u.isRead <;> simp [FieldSpec.ofUse, Writes, hu, eq_comm]
  merge := forall_mem_append.2 ⟨fun v hv hw => absurd hw.2 (hfirst v hv), fun _ => rfl⟩
  unwritten hnone := by
    have hu := (forall_mem_append.1 hnone).2
    exact hread (by simpa [Writes] using hu)

/-- A further writer of the same field with the same strategy is added. -/
theorem Entry.join (h : Entry seen field spec) (hu : u.Writes field) (hmerge : spec.merge = u.merge) :
    Entry (seen ++ [u]) field (spec.join u) where
  writers node := by
    rw [exists_mem_append, ← h.writers, and_iff_right hu]
    unfold FieldSpec.join
    dsimp only
    split
    · next hcontains =>
      refine ⟨.inl, ?_⟩
      rintro (hnode | rfl)
      · exact hnode
      · exact List.contains_iff_mem.1 hcontains
    · rw [List.mem_append, List.mem_singleton, eq_comm (a := node)]
  merge := forall_mem_append.2 ⟨h.merge, fun _ => hmerge⟩
  unwritten hnone := absurd hu (forall_mem_append.1 hnone).2

/-- A use whose field gets a right entry is reflected, unless it disagrees. -/
theorem Draft.Reflects.put (h : draft.Reflects seen) {new : FieldSpec}
    (hsame : Agree seen → ∀ v ∈ seen, ∀ field, v.Writes field → u.Writes field → v.merge = u.merge)
    (hnew : Agree seen → Entry (seen ++ [u]) u.field new) :
    Draft.Reflects { draft with fields := Dict.put draft.fields u.field new } (seen ++ [u]) where
  errors := by
    rw [agree_append_iff, ← h.errors]
    exact ⟨fun herrors => ⟨herrors, hsame (h.errors.1 herrors)⟩, And.left⟩
  known field := by
    dsimp only
    rw [Dict.get?_put, exists_mem_append, ← h.known]
    split <;> simp_all
  entry hagree field spec hspec := by
    have hbefore := (agree_append_iff.1 hagree).1
    dsimp only at hspec
    rw [Dict.get?_put] at hspec
    split at hspec
    · next hfield =>
      cases hspec
      subst hfield
      exact hnew hbefore
    · next hfield =>
      exact (h.entry hbefore field spec hspec).append_of_not fun hw => hfield hw.2

/-- A use of a known field adds no field. -/
theorem Draft.Reflects.known_append (h : draft.Reflects seen)
    (hknown : ∃ v ∈ seen, v.field = u.field) (field : String) :
    (Dict.get? draft.fields field).isSome ↔ ∃ v ∈ seen ++ [u], v.field = field := by
  rw [exists_mem_append, ← h.known]
  refine ⟨.inl, ?_⟩
  rintro (hsome | rfl)
  · exact hsome
  · exact (h.known _).2 hknown

/-- A read of a known field is reflected by what is there. -/
theorem Draft.Reflects.read (h : draft.Reflects seen) (hknown : ∃ v ∈ seen, v.field = u.field)
    (hu : u.isRead = true) : draft.Reflects (seen ++ [u]) where
  errors := by
    rw [agree_append_iff, ← h.errors]
    exact ⟨fun herrors => ⟨herrors, fun v _ field _ hw => by simp [Writes, hu] at hw⟩, And.left⟩
  known := h.known_append hknown
  entry hagree field spec hspec :=
    (h.entry (agree_append_iff.1 hagree).1 field spec hspec).append_of_not
      fun hw => by simp [Writes, hu] at hw

/-- Writes that disagree are reflected by an error. -/
theorem Draft.Reflects.conflict (h : draft.Reflects seen) (hknown : ∃ v ∈ seen, v.field = u.field)
    (hagree : ¬Agree (seen ++ [u])) (e : DefinitionError) :
    Draft.Reflects { draft with errors := draft.errors ++ [e] } (seen ++ [u]) where
  errors := ⟨fun herrors => by simp at herrors, fun h' => absurd h' hagree⟩
  known := h.known_append hknown
  entry h' := absurd h' hagree

/-- One use more is reflected, if no write comes behind a read. -/
theorem Draft.Reflects.add (h : draft.Reflects seen) (hread : u.isRead = true → u.merge = .overwrite)
    (hseen : u.isRead = false → ∀ v ∈ seen, v.isRead = false) :
    (draft.add u).Reflects (seen ++ [u]) := by
  unfold Draft.add
  split
  · next hnone =>
    have hfirst : ∀ v ∈ seen, v.field ≠ u.field := fun v hv hfield => by
      have := (h.known u.field).2 ⟨v, hv, hfield⟩
      rw [hnone] at this
      cases this
    exact h.put (fun _ v hv field hw hu => absurd (hw.2.trans hu.2.symm) (hfirst v hv))
      fun _ => entry_ofUse hfirst hread
  · next old hold =>
    have hknown : ∃ v ∈ seen, v.field = u.field := (h.known u.field).1 (by rw [hold]; rfl)
    split
    · next hu => exact h.read hknown hu
    · next hu =>
      have hwrite : u.Writes u.field := ⟨by simpa using hu, rfl⟩
      split
      · next hmerge =>
        refine h.conflict hknown (fun hagree => hmerge ?_) _
        obtain ⟨hbefore, hsame⟩ := agree_append_iff.1 hagree
        obtain ⟨v, hv, hfield⟩ := hknown
        have hw : v.Writes u.field := ⟨hseen hwrite.1 v hv, hfield⟩
        exact ((h.entry hbefore _ _ hold).merge v hv hw).trans (hsame v hv _ hw hwrite)
      · next hmerge =>
        have hmerge : old.merge = u.merge := Decidable.not_not.1 hmerge
        refine h.put (fun hbefore v hv field hw hu => ?_) fun hbefore =>
          (h.entry hbefore _ _ hold).join hwrite hmerge
        obtain rfl := hu.2
        exact ((h.entry hbefore _ _ hold).merge v hv hw).symm.trans hmerge

/-- By induction on the uses, of which each is added to those that have been seen. -/
theorem Draft.Reflects.foldl (h : draft.Reflects seen)
    (hread : ∀ u ∈ uses, u.isRead = true → u.merge = .overwrite)
    (horder : (seen ++ uses).Pairwise fun v u => u.isRead = false → v.isRead = false) :
    (uses.foldl Draft.add draft).Reflects (seen ++ uses) := by
  induction uses generalizing draft seen with
  | nil => rwa [List.append_nil]
  | cons u rest ih =>
    have hadd := h.add (hread u List.mem_cons_self) fun hu v hv =>
      (List.pairwise_append.1 horder).2.2 v hv u List.mem_cons_self hu
    rw [List.append_cons] at horder ⊢
    exact ih hadd (fun v hv => hread v (List.mem_cons_of_mem _ hv)) horder

/-- The uses with the writes first. -/
def writesFirst (uses : List FieldUse) : List FieldUse :=
  uses.filter (fun u => !u.isRead) ++ uses.filter FieldUse.isRead

theorem mem_writesFirst : u ∈ writesFirst uses ↔ u ∈ uses := by
  unfold writesFirst
  rw [List.mem_append, List.mem_filter, List.mem_filter]
  cases u.isRead <;> simp

theorem reflects_writesFirst (hread : ∀ u ∈ uses, u.isRead = true → u.merge = .overwrite) :
    ((writesFirst uses).foldl Draft.add ⟨[], []⟩).Reflects (writesFirst uses) := by
  have hnil : Draft.Reflects ⟨[], []⟩ [] := ⟨by simp [Agree], by simp, fun _ _ _ h => by cases h⟩
  refine hnil.foldl (fun u hu => hread u (mem_writesFirst.1 hu)) ?_
  rw [List.nil_append]
  refine List.pairwise_append.2 ⟨?_, ?_, fun v hv u _ _ => by simpa using (List.mem_filter.1 hv).2⟩
  · exact List.pairwise_filter.2 (List.pairwise_of_forall fun v u hv _ _ => by simpa using hv)
  · exact List.pairwise_filter.2 (List.pairwise_of_forall fun v u _ hu hw => by simp [hu] at hw)

end StateShape

/-! ## Definitions -/

/-- What is read has no merge strategy of its own. By induction on the kind, because a map also
reads what its inner node reads. -/
theorem NodeDecl.merge_of_read {messagesField : String} (kind : NodeKind) {id : String}
    {options : NodeOptions} {u : FieldUse} (hu : u ∈ NodeDecl.uses messagesField id options kind)
    (hread : u.isRead = true) : u.merge = .overwrite := by
  induction kind generalizing id options <;>
    grind [NodeDecl.uses, NodeDecl.uses.required, NodeDecl.inputReads, FieldUse.isRead,
      FieldUse.output, FieldUse.implicit, FieldUse.input]

theorem Definition.merge_of_read {d : Definition} {u : FieldUse} (hu : u ∈ d.uses)
    (hread : u.isRead = true) : u.merge = .overwrite := by
  rcases List.mem_append.1 hu with hu | hu
  · obtain ⟨n, _, hu⟩ := List.mem_flatMap.1 hu
    exact NodeDecl.merge_of_read n.kind hu hread
  · obtain ⟨e, _, hu⟩ := List.mem_flatMap.1 hu
    obtain ⟨c, _, hu⟩ := List.mem_flatMap.1 hu
    obtain ⟨path, _, rfl⟩ := List.mem_map.1 hu
    rfl

namespace StateShape

variable {d : Definition} {shape : StateShape} {field : String} {spec : FieldSpec}

theorem infer_eq (d : Definition) :
    infer d =
      let draft := (writesFirst d.uses).foldl Draft.add ⟨[], []⟩
      if draft.errors.isEmpty then .ok ⟨draft.fields⟩ else .error draft.errors := rfl

theorem reflects_uses (d : Definition) :
    ((writesFirst d.uses).foldl Draft.add ⟨[], []⟩).Reflects (writesFirst d.uses) :=
  reflects_writesFirst fun _ hu => Definition.merge_of_read hu

theorem reflects_of_infer (h : infer d = .ok shape) :
    Draft.Reflects ⟨shape.fields, []⟩ (writesFirst d.uses) := by
  have hreflects := reflects_uses d
  rw [infer_eq] at h
  dsimp only at h
  split at h
  · next hempty =>
    cases h
    exact ⟨by rw [← hreflects.errors, List.isEmpty_iff.1 hempty], hreflects.known, hreflects.entry⟩
  · cases h

/-- **A shape is inferred if and only if all writes agree.** -/
theorem infer_ok_iff : (∃ shape, infer d = .ok shape) ↔ FieldUse.Agree d.uses := by
  have hreflects := reflects_uses d
  have hagree : FieldUse.Agree (writesFirst d.uses) ↔ FieldUse.Agree d.uses := by
    unfold FieldUse.Agree
    simp only [mem_writesFirst]
  rw [← hagree, ← hreflects.errors, infer_eq, ← List.isEmpty_iff]
  dsimp only
  split <;> simp_all

/-- The fields of an inferred shape are those that are used. -/
theorem isSome_get?_iff (h : infer d = .ok shape) :
    (shape.get? field).isSome ↔ ∃ u ∈ d.uses, u.field = field := by
  have hknown := (reflects_of_infer h).known field
  simp only [mem_writesFirst] at hknown
  exact hknown

theorem entry_of_infer (h : infer d = .ok shape) (hspec : shape.get? field = some spec) :
    Entry d.uses field spec := by
  have hreflects := reflects_of_infer h
  obtain ⟨hwriters, hmerge, hunwritten⟩ := hreflects.entry (hreflects.errors.1 rfl) field spec hspec
  simp only [mem_writesFirst] at hwriters hmerge hunwritten
  exact ⟨hwriters, hmerge, hunwritten⟩

/-- **A declared write is merged as it is declared.** -/
theorem merge_of_infer (h : infer d = .ok shape) {u : FieldUse} (hu : u ∈ d.uses)
    (hwrite : u.isRead = false) : shape.merge u.field = u.merge := by
  obtain ⟨spec, hspec⟩ := Option.isSome_iff_exists.1 ((isSome_get?_iff h).2 ⟨u, hu, rfl⟩)
  unfold StateShape.merge
  rw [hspec]
  exact (entry_of_infer h hspec).merge u hu ⟨hwrite, rfl⟩

end StateShape

end WorkflowGraph
