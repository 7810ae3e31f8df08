import WorkflowGraph.Proofs.Shape.ReadBack

/-!
# Merging updates

An update is merged write by write, and what becomes of a field depends on the writes to that field
alone: it keeps the last value where it is overwritten, and it gathers all of them where it is
appended to. A sequence of updates is therefore one update, which has their writes behind each other
(`State.applyAll_eq_apply_joined`), and what it leaves can be said field by field
(`State.merges_field_by_field`).
-/

set_option autoImplicit false

namespace WorkflowGraph

/-! ## Updates behind each other -/

namespace Update

variable {field : String}

/-- The updates of a sequence as one. -/
def joined (us : List Update) : Update := us.foldr extend empty

theorem valuesOf_extend (u w : Update) :
    (u.extend w).valuesOf field = u.valuesOf field ++ w.valuesOf field := by
  simp [valuesOf, extend]

theorem valuesOf_joined (us : List Update) :
    (joined us).valuesOf field = us.flatMap fun u => u.valuesOf field := by
  induction us with
  | nil => simp [joined, valuesOf, empty]
  | cons u rest ih =>
    rw [joined, List.foldr_cons, ← joined, valuesOf_extend, ih, List.flatMap_cons]

theorem last?_eq_getLast? (u : Update) : u.last? field = (u.valuesOf field).getLast? := by
  rw [last?, valuesOf, List.getLast?_map, List.getLast?_eq_head?_reverse, ← List.filter_reverse,
    List.head?_filter]

end Update

theorem Fields.get?_apply_write (fields : Fields) (shape : StateShape) (u : Update) (field : String)
    (v : Value) :
    Dict.get? (fields.apply shape (u.write field v)) field =
      some ((shape.merge field).merge (Dict.get? (fields.apply shape u) field) v) := by
  unfold apply Update.write
  rw [List.foldl_append, List.foldl_cons, List.foldl_nil, write, Dict.get?_put_self]

/-! ## Fields that are overwritten -/

theorem Fields.get?_apply_of_overwrite {shape : StateShape} {field : String}
    (hmerge : shape.merge field = .overwrite) (fields : Fields) (u : Update) :
    Dict.get? (fields.apply shape u) field =
      (u.valuesOf field).getLast?.or (Dict.get? fields field) := by
  rw [← Update.last?_eq_getLast?]
  cases hlast : u.last? field with
  | some v =>
    obtain ⟨old, hold⟩ := exists_get?_apply fields shape hlast
    rw [hold, hmerge, Option.some_or]
    rfl
  | none =>
    have hnone : u.valuesOf field = [] := by
      rwa [Update.last?_eq_getLast?, List.getLast?_eq_none_iff] at hlast
    have hnot : field ∉ u.fields := fun hmem => Update.valuesOf_ne_nil_iff.2 hmem hnone
    rw [get?_apply_of_not_mem hnot, Option.none_or]

/-! ## Fields that are appended to -/

/-- What is in a field stays in front of what is appended to it. -/
theorem isPrefix_accumulated (old : Option Value) (values : List Value) :
    (Value.ofOption old).asList <+: (Value.ofOption (accumulated old values)).asList := by
  cases values with
  | nil => exact List.prefix_rfl
  | cons v rest => exact List.prefix_append _ _

/-! ## Sequences of updates -/

namespace State

/-- The state after the updates of a sequence, one after another. -/
def applyAll (s : State) (shape : StateShape) (us : List Update) : State :=
  us.foldl (fun t u => t.apply shape u) s

theorem apply_apply (s : State) (shape : StateShape) (u w : Update) :
    (s.apply shape u).apply shape w = s.apply shape (u.extend w) := by
  unfold apply Fields.apply Update.extend
  rw [List.foldl_append]

/-- By induction on the sequence: the first update and the rest, which is one update, are one. -/
theorem applyAll_eq_apply_joined (s : State) (shape : StateShape) (us : List Update) :
    s.applyAll shape us = s.apply shape (.joined us) := by
  induction us generalizing s with
  | nil => rfl
  | cons u rest ih =>
    have hrest : (s.apply shape u).applyAll shape rest = (s.apply shape u).apply shape _ := ih _
    rw [applyAll, List.foldl_cons, ← applyAll, hrest, apply_apply]
    rfl

/-- What has become of a state by merging values into its fields, for each field the values written
to it in their order. Nothing but the fields changes; a field without a value stays as it is; of the
values of a field that is overwritten, the last one stays; and those of a field that is appended to
follow what has been in it, as the items of a list. -/
structure Merged (shape : StateShape) (written : String → List Value) (s t : State) : Prop where
  unwritten : ∀ field, written field = [] → Dict.get? t.values field = Dict.get? s.values field
  overwritten : ∀ field v, shape.merge field = .overwrite → (written field).getLast? = some v →
    Dict.get? t.values field = some v
  appended : ∀ field, shape.merge field = .append → written field ≠ [] →
    Dict.get? t.values field = some (.list ((Value.ofOption (Dict.get? s.values field)).asList ++
      (written field).flatMap Value.contribution))
  kept : ∀ field, shape.merge field = .append →
    (Value.ofOption (Dict.get? s.values field)).asList <+:
      (Value.ofOption (Dict.get? t.values field)).asList
  step : t.step = s.step
  loopCounters : t.loopCounters = s.loopCounters
  errors : t.errors = s.errors
  interrupt : t.interrupt = s.interrupt

theorem merged_apply (s : State) (shape : StateShape) (u : Update) :
    Merged shape u.valuesOf s (s.apply shape u) where
  unwritten field hnone := by
    have hnot : field ∉ u.fields := fun hmem => Update.valuesOf_ne_nil_iff.2 hmem hnone
    exact Fields.get?_apply_of_not_mem hnot
  overwritten field v hmerge hlast := by
    have hget := Fields.get?_apply_of_overwrite hmerge s.values u
    rwa [hlast, Option.some_or] at hget
  appended field hmerge hsome := by
    have hget := Fields.get?_apply_of_append hmerge s.values u
    cases hvalues : u.valuesOf field with
    | nil => exact absurd hvalues hsome
    | cons v rest => rwa [hvalues] at hget
  kept field hmerge := by
    have hget := Fields.get?_apply_of_append hmerge s.values u
    unfold apply
    rw [hget]
    exact isPrefix_accumulated _ _
  step := rfl
  loopCounters := rfl
  errors := rfl
  interrupt := rfl

/-- **Updates are merged field by field.** Two updates are one with the writes of both, and so is a
whole sequence of them; of each field it leaves what its own values make of it, in the order of the
sequence, and nothing else of the state changes. -/
theorem merges_field_by_field (s : State) (shape : StateShape) (us : List Update) :
    (∀ u w : Update, (s.apply shape u).apply shape w = s.apply shape (u.extend w)) ∧
      s.applyAll shape us = s.apply shape (.joined us) ∧
      Merged shape (fun field => us.flatMap fun u => u.valuesOf field) s
        (s.applyAll shape us) := by
  refine ⟨apply_apply s shape, applyAll_eq_apply_joined s shape us, ?_⟩
  have hvalues : (Update.joined us).valuesOf = fun field => us.flatMap fun u => u.valuesOf field :=
    funext fun field => Update.valuesOf_joined us
  rw [applyAll_eq_apply_joined, ← hvalues]
  exact merged_apply s shape (.joined us)

end State

end WorkflowGraph
