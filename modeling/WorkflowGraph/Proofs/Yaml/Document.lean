import WorkflowGraph.Yaml.Document

/-!
# Keys of documents

A mapping that holds one key twice is refused wherever it stands, so no mapping of a document that
is read holds a key twice (`distinct_of_read?`).
-/

set_option autoImplicit false

namespace WorkflowGraph.Yaml

/-- Whether no mapping in a node holds a key twice. -/
inductive Node.Distinct : Node → Prop where
  | null : Distinct .null
  | bool (b : Bool) : Distinct (.bool b)
  | int (k : Int) : Distinct (.int k)
  | float (x : Float) : Distinct (.float x)
  | text (s : String) : Distinct (.text s)
  | sequence {items : List Node} (h : ∀ n ∈ items, Distinct n) : Distinct (.sequence items)
  | mapping {entries : List (Node × Node)}
    (hkeys : entries.Pairwise fun p q => p.1.same q.1 = false)
    (h : ∀ p ∈ entries, Distinct p.2) : Distinct (.mapping entries)
  | tagged (tag : String) {n : Node} (h : Distinct n) : Distinct (.tagged tag n)

/-- Whether a reader gives nothing but what has a property. -/
def Resolving.Gives {α : Type} (P : α → Prop) (m : Resolving α) : Prop :=
  ∀ before a after, m.run before = some (a, after) → P a

namespace Resolving

variable {α β : Type} {P : α → Prop} {Q : β → Prop}

theorem gives_pure {a : α} (h : P a) : Gives P (pure a : Resolving α) := by
  rintro _ _ _ ⟨⟩
  exact h

theorem gives_lift {found : Option α} (h : ∀ a, found = some a → P a) :
    Gives P (liftM found : Resolving α) := by
  intro before a after hrun
  cases found with
  | none => cases hrun
  | some b =>
    cases hrun
    exact h _ rfl

theorem gives_trivial (m : Resolving α) : Gives (fun _ => True) m := fun _ _ _ _ => trivial

theorem Gives.bind {m : Resolving α} {next : α → Resolving β} (h : Gives P m)
    (hnext : ∀ a, P a → Gives Q (next a)) : Gives Q (m >>= next) := by
  intro before b after hrun
  obtain ⟨⟨a, between⟩, hm, hafter⟩ := Option.bind_eq_some_iff.1 hrun
  exact hnext a (h _ _ _ hm) _ _ _ hafter

/-- A reader that is applied to every item of a list. -/
theorem Gives.mapM {read : β → Resolving α} (h : ∀ b, Gives P (read b)) (items : List β) :
    Gives (fun read => ∀ a ∈ read, P a) (items.mapM read) := by
  induction items with
  | nil => exact gives_pure fun a ha => absurd ha List.not_mem_nil
  | cons b rest ih =>
    rw [List.mapM_cons]
    exact (h b).bind fun a ha => ih.bind fun as has => gives_pure (List.forall_mem_cons.2 ⟨ha, has⟩)

/-- A reader that goes through a list, by induction on the list. -/
theorem Gives.foldlM {read : α → β → Resolving α}
    (h : ∀ done b, P done → Gives P (read done b)) (items : List β) {start : α} (hstart : P start) :
    Gives P (items.foldlM read start) := by
  induction items generalizing start with
  | nil => exact gives_pure hstart
  | cons b rest ih =>
    rw [List.foldlM_cons]
    exact (h start b hstart).bind fun done hdone => ih hdone

end Resolving

open Resolving

/-- Whether a node is a scalar, under whatever tags. -/
inductive Node.IsScalar : Node → Prop where
  | null : IsScalar .null
  | bool (b : Bool) : IsScalar (.bool b)
  | int (k : Int) : IsScalar (.int k)
  | float (x : Float) : IsScalar (.float x)
  | text (s : String) : IsScalar (.text s)
  | tagged (tag : String) {n : Node} (h : IsScalar n) : IsScalar (.tagged tag n)

/-- A scalar holds no mapping. -/
theorem Node.IsScalar.distinct {n : Node} (h : n.IsScalar) : n.Distinct := by
  induction h with
  | null => exact .null
  | bool b => exact .bool b
  | int k => exact .int k
  | float x => exact .float x
  | text s => exact .text s
  | tagged tag _ ih => exact .tagged tag ih

theorem isScalar_underOwnTag (tag : Option Tag) {n : Node} (h : n.IsScalar) :
    (underOwnTag tag n).IsScalar := by
  unfold underOwnTag
  split
  · exact .tagged _ h
  · exact h

theorem distinct_underOwnTag (tag : Option Tag) {n : Node} (h : n.Distinct) :
    (underOwnTag tag n).Distinct := by
  unfold underOwnTag
  split
  · exact .tagged _ h
  · exact h

namespace Scalar

theorem isScalar_of_intNode? {k : Int} {n : Node} (h : intNode? k = some n) : n.IsScalar := by
  unfold intNode? at h
  split at h
  · cases h
    exact .int k
  · cases h

theorem isScalar_of_plain? {text : String} {n : Node} (h : plain? text = some n) :
    n.IsScalar := by
  unfold plain? at h
  split at h
  · cases h
    exact .null
  · split at h
    · cases h
      exact .bool _
    · split at h
      · exact isScalar_of_intNode? h
      · dsimp only at h
        split at h <;> cases h
        · exact .float _
        · exact .text _

theorem isScalar_of_underTag? {tag : Tag} {text : String} {n : Node}
    (h : underTag? tag text = some n) : n.IsScalar := by
  unfold underTag? at h
  split at h
  · obtain ⟨b, _, rfl⟩ := Option.map_eq_some_iff.1 h
    exact .bool b
  · split at h
    · obtain ⟨k, _, hk⟩ := Option.bind_eq_some_iff.1 h
      exact isScalar_of_intNode? hk
    · split at h
      · obtain ⟨x, _, rfl⟩ := Option.map_eq_some_iff.1 h
        exact .float x
      · split at h
        · split at h <;> cases h
          exact .null
        · cases h
          exact .text _

end Scalar

theorem isScalar_of_untaggedNode? {text : String} {style : ScalarStyle} {n : Node}
    (h : untaggedNode? text style = some n) : n.IsScalar := by
  unfold untaggedNode? at h
  split at h
  · exact Scalar.isScalar_of_plain? h
  · cases h
    exact .text _

theorem isScalar_of_scalarNode? {tag : Option Tag} {text : String} {style : ScalarStyle} {n : Node}
    (h : scalarNode? tag text style = some n) : n.IsScalar := by
  unfold scalarNode? at h
  split at h
  · split at h
    · obtain ⟨m, hm, rfl⟩ := Option.map_eq_some_iff.1 h
      exact isScalar_underOwnTag _ (isScalar_of_untaggedNode? hm)
    · exact Scalar.isScalar_of_underTag? h
  · exact isScalar_of_untaggedNode? h

/-- An entry is added to a mapping only under a key that the mapping does not hold. -/
theorem distinct_of_extended? {done entries : List (Node × Node)} {k v : Node}
    (h : KeyRule.distinct.extended? done k v = some entries) (hdone : (Node.mapping done).Distinct)
    (hv : v.Distinct) : (Node.mapping entries).Distinct := by
  unfold KeyRule.extended? at h
  split at h
  · cases h
  · next hnew =>
    cases h
    cases hdone with | mapping hkeys hbodies =>
    simp only [true_and, List.any_eq_true, not_exists, not_and, Bool.not_eq_true] at hnew
    have hnext : ∀ p ∈ done, ∀ q ∈ [(k, v)], p.1.same q.1 = false := by
      intro p hp q hq
      rw [List.mem_singleton.1 hq]
      exact hnew p hp
    refine .mapping (List.pairwise_append.2 ⟨hkeys, List.pairwise_singleton _ _, hnext⟩)
      fun p hp => ?_
    rcases List.mem_append.1 hp with hp | hp
    · exact hbodies p hp
    · rw [List.mem_singleton.1 hp]
      exact hv

namespace Document

variable (doc : Document)

theorem nodeWith?_distinct {inner : Option (Draft → Resolving Node)}
    (hinner : ∀ read, inner = some read → ∀ d, Gives Node.Distinct (read d)) (d : Draft) :
    Gives Node.Distinct (doc.nodeWith? .distinct inner d) := by
  refine (gives_trivial (doc.resolve d)).bind fun found _ => ?_
  split
  · exact gives_lift fun n hn => (isScalar_of_scalarNode? hn).distinct
  · next read =>
    exact (Gives.mapM (hinner read rfl) _).bind fun items hitems =>
      gives_pure (distinct_underOwnTag _ (.sequence hitems))
  · next read =>
    -- the entries that have been read form a mapping without a repeated key
    have hempty : (Node.mapping []).Distinct := .mapping .nil fun p hp => absurd hp List.not_mem_nil
    refine Gives.bind (P := fun done => (Node.mapping done).Distinct)
      (Gives.foldlM (fun done p hdone => ?_) _ hempty)
      fun entries hentries => gives_pure (distinct_underOwnTag _ hentries)
    exact (gives_trivial _).bind fun k _ => (hinner read rfl p.2).bind fun v hv =>
      gives_lift fun entries hentries => distinct_of_extended? hentries hdone hv
  · rintro _ _ _ ⟨⟩

theorem node?_distinct (depth : Nat) (d : Draft) :
    Gives Node.Distinct (doc.node? .distinct depth d) := by
  induction depth generalizing d with
  | zero =>
    refine doc.nodeWith?_distinct (fun read hread => ?_) d
    cases hread
  | succ depth ih =>
    refine doc.nodeWith?_distinct (fun read hread => ?_) d
    cases hread
    exact ih

theorem distinct_of_content? {n : Node} (h : doc.content? = some n) : n.Distinct := by
  unfold content? at h
  split at h
  · cases h
    exact .null
  · next root _ =>
    obtain ⟨⟨m, after⟩, hm, rfl⟩ := Option.map_eq_some_iff.1 h
    exact doc.node?_distinct maxDepth root _ _ _ hm

end Document

/-- No mapping of a document that is read holds a key twice. -/
theorem distinct_of_read? {text : String} {n : Node} (h : read? text = some n) : n.Distinct := by
  obtain ⟨tokens, _, h⟩ := Option.bind_eq_some_iff.1 h
  obtain ⟨doc, _, h⟩ := Option.bind_eq_some_iff.1 h
  exact doc.distinct_of_content? h

end WorkflowGraph.Yaml
