import Mathlib.Data.List.Induction
import WorkflowGraph.Proofs.Shape.Coverage
import WorkflowGraph.Proofs.Shape.Writes
import WorkflowGraph.Proofs.Text

/-!
# Reading back what has been written

A write goes to a field under its whole name, and a read follows the segments of a path. A name
without a dot is its own only segment, so that the last write to it is what is read
(`State.at?_apply`). A name with a dot leads elsewhere: what is written under it is never read under
it (`State.at?_apply_single_of_mem`).
-/

set_option autoImplicit false

namespace WorkflowGraph

/-! ## Names as paths -/

namespace Path

theorem not_mem_of_mem_segments {path : String} : ∀ s ∈ segments path, '.' ∉ s.toList := by
  intro s hs
  obtain ⟨part, hpart, rfl⟩ := List.mem_map.1 hs
  rw [String.toList_ofList]
  exact Text.not_mem_of_mem_splitList part hpart

/-- A name with a dot does not start at the field of this name. -/
theorem head?_segments_ne {field first : String} (hdot : '.' ∈ field.toList)
    (hfirst : first ∈ (segments field).head?) : first ≠ field := by
  rintro rfl
  exact not_mem_of_mem_segments first (List.mem_of_mem_head? hfirst) hdot

end Path

namespace Fields

variable {fields : Fields} {shape : StateShape} {u : Update} {field : String} {v : Value}

theorem at?_of_not_mem (hplain : '.' ∉ field.toList) :
    fields.at? field = Dict.get? fields field := by
  rw [at?, Path.segments_of_not_mem hplain, follow?]
  cases Dict.get? fields field <;> rfl

/-! ## What writes leave -/

variable (fields shape) in
/-- The last write to a field is merged into whatever has been there before it. By induction on the
writes, from the last one on. -/
theorem exists_get?_apply (h : u.last? field = some v) :
    ∃ old, Dict.get? (fields.apply shape u) field = some ((shape.merge field).merge old v) := by
  obtain ⟨writes⟩ := u
  induction writes using List.reverseRecOn with
  | nil => cases h
  | append_singleton front w ih =>
    obtain ⟨name, written⟩ := w
    unfold Update.last? at h ih
    rw [List.reverse_append, List.reverse_singleton, List.singleton_append, List.find?_cons] at h
    unfold apply at ih ⊢
    rw [List.foldl_append, List.foldl_cons, List.foldl_nil, write]
    by_cases hname : name = field
    · subst hname
      rw [beq_self_eq_true] at h
      cases h
      exact ⟨_, Dict.get?_put_self _ _ _⟩
    · rw [beq_false_of_ne hname] at h
      obtain ⟨old, hold⟩ := ih h
      exact ⟨old, by rw [Dict.get?_put_of_ne _ _ hname, hold]⟩

theorem get?_apply_of_not_mem (h : field ∉ u.fields) :
    Dict.get? (fields.apply shape u) field = Dict.get? fields field := by
  obtain ⟨writes⟩ := u
  unfold apply
  induction writes generalizing fields with
  | nil => rfl
  | cons w rest ih =>
    obtain ⟨hw, hrest⟩ := List.forall_mem_cons.1 (List.forall_mem_ne.2 h)
    rw [List.foldl_cons, ih, write, Dict.get?_put_of_ne _ _ (Ne.symm hw)]
    exact fun hmem => hrest _ hmem rfl

/-- What has last been written is read back, if the field is overwritten and has a name without a
dot. -/
theorem at?_apply (hmerge : shape.merge field = .overwrite) (hplain : '.' ∉ field.toList)
    (h : u.last? field = some v) : (fields.apply shape u).at? field = some v := by
  obtain ⟨old, hold⟩ := exists_get?_apply fields shape h
  rw [at?_of_not_mem hplain, hold, hmerge]
  rfl

theorem at?_apply_of_not_mem (hplain : '.' ∉ field.toList) (h : field ∉ u.fields) :
    (fields.apply shape u).at? field = fields.at? field := by
  rw [at?_of_not_mem hplain, at?_of_not_mem hplain, get?_apply_of_not_mem h]

/-- What is written under a name with a dot is not read under it. -/
theorem at?_apply_single_of_mem (hdot : '.' ∈ field.toList) :
    (fields.apply shape (.single field v)).at? field = fields.at? field := by
  refine follow?_congr fun first hfirst => get?_apply_of_not_mem fun hmem => ?_
  exact Path.head?_segments_ne hdot hfirst (List.mem_singleton.1 hmem)

/-- A field that something other than null has been written to is populated, however it is
merged. -/
theorem isPopulated_at?_apply (hplain : '.' ∉ field.toList) (h : u.last? field = some v)
    (hv : v.isNull = false) : isPopulated ((fields.apply shape u).at? field) = true := by
  obtain ⟨old, hold⟩ := exists_get?_apply fields shape h
  rw [at?_of_not_mem hplain, hold]
  cases shape.merge field with
  | overwrite =>
    show (!v.isNull) = true
    rw [hv]
    rfl
  | append => rfl

end Fields

/-! ## Fields that accumulate -/

/-- The values that an update writes to a field, in their order. -/
def Update.valuesOf (u : Update) (field : String) : List Value :=
  (u.writes.filter fun w => w.1 == field).map Prod.snd

/-- What a field that accumulates holds after values have been written to it. -/
def accumulated (old : Option Value) : List Value → Option Value
  | [] => old
  | values => some (.list ((Value.ofOption old).asList ++ values.flatMap Value.contribution))

theorem accumulated_singleton (old : Option Value) (value : Value) :
    accumulated old [value] = some (MergeStrategy.append.merge old value) := by
  rw [accumulated, List.flatMap_singleton]
  · rfl
  · rintro ⟨⟩

theorem accumulated_append (old : Option Value) (values more : List Value) :
    accumulated (accumulated old values) more = accumulated old (values ++ more) := by
  cases values with
  | nil => rfl
  | cons first rest =>
    cases more with
    | nil => rw [List.append_nil, accumulated]
    | cons next more =>
      simp only [accumulated, Value.ofOption, Value.asList, List.cons_append, List.flatMap_append,
        ← List.append_assoc, List.flatMap_cons]

theorem Update.valuesOf_ne_nil_iff {u : Update} {field : String} :
    u.valuesOf field ≠ [] ↔ field ∈ u.fields := by
  rw [valuesOf, ne_eq, List.map_eq_nil_iff, List.filter_eq_nil_iff]
  simp [fields]

/-- What accumulates in a field is what is written to it. By induction on the writes. -/
theorem Fields.get?_apply_of_append {shape : StateShape} {field : String}
    (hmerge : shape.merge field = .append) (fields : Fields) (u : Update) :
    Dict.get? (fields.apply shape u) field =
      accumulated (Dict.get? fields field) (u.valuesOf field) := by
  obtain ⟨writes⟩ := u
  unfold apply Update.valuesOf
  induction writes generalizing fields with
  | nil => rfl
  | cons w rest ih =>
    rw [List.foldl_cons, ih, List.filter_cons, write]
    by_cases hname : w.1 = field
    · rw [if_pos (beq_iff_eq.2 hname), List.map_cons, hname, Dict.get?_put_self, hmerge,
        ← accumulated_singleton]
      exact accumulated_append _ [w.2] _
    · rw [if_neg (by simpa using hname), Dict.get?_put_of_ne _ _ hname]

/-! ## Declared fields -/

namespace Definition

variable {d : Definition} {shape : StateShape} {n : NodeDecl} {field : String}

theorem merge_of_declares (hshape : StateShape.infer d = .ok shape) (hn : n ∈ d.nodes)
    {merge : MergeStrategy} (h : d.Declares n field merge) : shape.merge field = merge := by
  obtain ⟨u, hu, ⟨hread, rfl⟩, _, rfl⟩ := exists_write_iff.2 ⟨n, hn, rfl, h⟩
  exact StateShape.merge_of_infer hshape hu hread

/-- **What a node writes is read back if and only if the field has a name without a dot.** -/
theorem reads_back_iff (hshape : StateShape.infer d = .ok shape) (hn : n ∈ d.nodes)
    (h : d.Declares n field .overwrite) :
    (∀ (s : State) (u : Update) (v : Value), u.last? field = some v →
      (s.apply shape u).at? field = some v) ↔ '.' ∉ field.toList := by
  constructor
  · intro hreads hdot
    have hread := hreads .blank (.single field .null) .null (by simp [Update.single, Update.last?])
    have hmissed : (State.blank.apply shape (.single field .null)).at? field =
        State.blank.at? field := Fields.at?_apply_single_of_mem hdot
    have hblank : State.blank.at? field = none := by
      show Fields.follow? [] (Path.segments field) = none
      cases Path.segments field <;> rfl
    rw [hmissed, hblank] at hread
    cases hread
  · intro hplain s u v hlast
    exact Fields.at?_apply (merge_of_declares hshape hn h) hplain hlast

end Definition

/-! ## Routing -/

namespace TransitionTable

variable {t : TransitionTable} {id field : String} {routes : Dict Target} {fallback : Option Target}

/-- The transition of a router is decided by what its field is read as. -/
theorem next_of_route (h : t.transition? id = some (.route field routes fallback))
    {fields fields' : Fields} (hsame : fields.at? field = fields'.at? field) :
    t.next id fields = t.next id fields' := by
  refine next_congr fun path hpath => ?_
  unfold lookups at hpath
  rw [h, Option.toList_some, List.flatMap_singleton] at hpath
  rw [List.mem_singleton.1 hpath]
  exact hsame

/-- A route is taken on the field of a router with this id. -/
theorem MadeOf.exists_router {d : Definition} (hmade : t.MadeOf d)
    (h : t.transition? id = some (.route field routes fallback)) :
    ∃ n ∈ d.nodes, n.id = id ∧ d.Declares n field .overwrite := by
  unfold transition? at h
  rw [hmade.transitions] at h
  obtain ⟨n, hn, hid, htransition⟩ := Definition.exists_node_of_get?_transitions h
  unfold Definition.transitionOf at htransition
  split at htransition
  · next spec hkind =>
    cases htransition
    refine ⟨n, hn, hid, ?_⟩
    unfold Definition.Declares
    rw [hkind]
    exact .route
  · obtain ⟨target, heq⟩ | ⟨branches, other, heq, _⟩ :=
      Transition.exists_edge_of_ofEdges htransition
    · cases heq
    · cases heq

end TransitionTable

/-! ## Nodes whose outputs are there -/

/-- A node whose outputs have all been written, with something other than null, is skipped where
they have names without dots. -/
theorem NodeFrame.isSettled_apply {f : NodeFrame} (hskips : f.policy.skipFields ≠ []) (s : State)
    (shape : StateShape) {u : Update}
    (h : ∀ field ∈ f.policy.skipFields, '.' ∉ field.toList ∧
      ∃ v, u.last? field = some v ∧ v.isNull = false) :
    f.isSettled (s.apply shape u) = true := by
  refine isSettled_iff.2 ⟨hskips, fun field hfield => ?_⟩
  obtain ⟨hplain, v, hlast, hv⟩ := h field hfield
  exact Fields.isPopulated_at?_apply hplain hlast hv

end WorkflowGraph
