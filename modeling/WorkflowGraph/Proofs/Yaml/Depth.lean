import WorkflowGraph.Definition.Reader
import WorkflowGraph.Proofs.Yaml.Spelling

/-!
# How deeply documents are nested

The collections of a document that is read are nested no deeper than a fixed number
(`fits_of_read?`). A definition that stands inline in a node lies deeper than the node, so that its
own inline definitions are nested less deeply (`Definition.InlineBelow`).
-/

set_option autoImplicit false

namespace WorkflowGraph

namespace Yaml

/-- Whether the collections of a node are nested no deeper than a number tells. Tags do not count,
and neither do the keys of mappings. -/
inductive Node.Fits : Nat → Node → Prop where
  | null (k : Nat) : Fits k .null
  | bool (k : Nat) (b : Bool) : Fits k (.bool b)
  | int (k : Nat) (i : Int) : Fits k (.int i)
  | float (k : Nat) (x : Float) : Fits k (.float x)
  | text (k : Nat) (s : String) : Fits k (.text s)
  | sequence {k : Nat} {items : List Node} (h : ∀ n ∈ items, Fits k n) :
    Fits (k + 1) (.sequence items)
  | mapping {k : Nat} {entries : List (Node × Node)} (h : ∀ p ∈ entries, Fits k p.2) :
    Fits (k + 1) (.mapping entries)
  | tagged {k : Nat} (tag : String) {n : Node} (h : Fits k n) : Fits k (.tagged tag n)

theorem Node.IsScalar.fits {n : Node} (h : n.IsScalar) (k : Nat) : n.Fits k := by
  induction h with
  | null => exact .null k
  | bool b => exact .bool k b
  | int i => exact .int k i
  | float x => exact .float k x
  | text s => exact .text k s
  | tagged tag _ ih => exact .tagged tag ih

theorem fits_underOwnTag (tag : Option Tag) {k : Nat} {n : Node} (h : n.Fits k) :
    (underOwnTag tag n).Fits k := by
  unfold underOwnTag
  split
  · exact .tagged _ h
  · exact h

theorem Node.Fits.content {k : Nat} {n : Node} (h : n.Fits k) : n.content.Fits k := by
  induction h with
  | tagged tag _ ih => exact ih
  | null => exact .null _
  | bool => exact .bool _ _
  | int => exact .int _ _
  | float => exact .float _ _
  | text => exact .text _ _
  | sequence h => exact .sequence h
  | mapping h => exact .mapping h

theorem Node.Fits.mono {k l : Nat} {n : Node} (h : n.Fits k) (hle : k ≤ l) : n.Fits l := by
  induction h generalizing l with
  | null => exact .null l
  | bool _ b => exact .bool l b
  | int _ i => exact .int l i
  | float _ x => exact .float l x
  | text _ s => exact .text l s
  | sequence _ ih =>
    obtain ⟨below, rfl⟩ := Nat.exists_eq_add_of_le' (Nat.le_trans (Nat.le_add_left 1 _) hle)
    exact .sequence fun n hn => ih n hn (Nat.le_of_succ_le_succ hle)
  | mapping _ ih =>
    obtain ⟨below, rfl⟩ := Nat.exists_eq_add_of_le' (Nat.le_trans (Nat.le_add_left 1 _) hle)
    exact .mapping fun p hp => ih p hp (Nat.le_of_succ_le_succ hle)
  | tagged tag _ ih => exact .tagged tag (ih hle)

/-- What stands in a mapping is nested less deeply than the mapping. -/
theorem Node.Fits.entries {k : Nat} {n : Node} {entries : List (Node × Node)} (h : n.Fits k)
    (hn : n.content = .mapping entries) : ∃ below, k = below + 1 ∧ ∀ p ∈ entries, p.2.Fits below := by
  have hcontent := h.content
  rw [hn] at hcontent
  cases hcontent with | mapping h => exact ⟨_, rfl, h⟩

theorem Node.exists_of_lookup? {entries : List (Node × Node)} {key : String} {n : Node}
    (h : lookup? entries key = some n) : ∃ p ∈ entries, p.2 = n := by
  fun_induction lookup? entries key with
  | case1 => cases h
  | case2 v rest =>
    cases h
    exact ⟨_, List.mem_cons_self, rfl⟩
  | case3 k v rest _ ih =>
    obtain ⟨p, hp, hn⟩ := ih h
    exact ⟨p, List.mem_cons_of_mem _ hp, hn⟩
  | case4 p rest _ ih =>
    obtain ⟨p', hp, hn⟩ := ih h
    exact ⟨p', List.mem_cons_of_mem _ hp, hn⟩

open Resolving

namespace Document

variable (doc : Document) (rule : KeyRule)

theorem extended?_fits {k : Nat} {done entries : List (Node × Node)} {key v : Node}
    (h : rule.extended? done key v = some entries) (hdone : ∀ p ∈ done, p.2.Fits k)
    (hv : v.Fits k) : ∀ p ∈ entries, p.2.Fits k := by
  unfold KeyRule.extended? at h
  split at h
  · cases h
  · cases h
    intro p hp
    rcases List.mem_append.1 hp with hp | hp
    · exact hdone p hp
    · rw [List.mem_singleton.1 hp]
      exact hv

/-- By induction on the depth: a collection is read where one more may be opened, and what stands in
it one below. -/
theorem node?_fits (depth : Nat) (d : Draft) :
    Gives (Node.Fits depth) (doc.node? rule depth d) := by
  induction depth generalizing d with
  | zero =>
    refine (gives_trivial (doc.resolve d)).bind fun found _ => ?_
    split
    · exact gives_lift fun n hn => (isScalar_of_scalarNode? hn).fits 0
    · next hread => cases hread
    · next hread => cases hread
    · rintro _ _ _ ⟨⟩
  | succ depth ih =>
    refine (gives_trivial (doc.resolve d)).bind fun found _ => ?_
    split
    · exact gives_lift fun n hn => (isScalar_of_scalarNode? hn).fits _
    · next hread =>
      cases hread
      exact (Gives.mapM ih _).bind fun items hitems =>
        gives_pure (fits_underOwnTag _ (.sequence hitems))
    · next hread =>
      cases hread
      refine Gives.bind (P := fun done => ∀ p ∈ done, p.2.Fits depth)
        (Gives.foldlM (fun done p hdone => ?_) _ fun p hp => absurd hp List.not_mem_nil)
        fun entries hentries => gives_pure (fits_underOwnTag _ (.mapping hentries))
      have hentry (key : Node) : Gives (fun done => ∀ p ∈ done, p.2.Fits depth) (do
          let v ← doc.node? rule depth p.2
          rule.extended? done key v) :=
        (ih p.2).bind fun v hv =>
          gives_lift fun entries hentries => extended?_fits rule hentries hdone hv
      cases rule with
      | distinct => exact (gives_trivial _).bind fun key _ => hentry key
      | texts => exact (gives_trivial _).bind fun key _ => hentry key
    · rintro _ _ _ ⟨⟩

end Document

/-- The collections of a document that is read are nested no deeper than the greatest depth. -/
theorem fits_of_read? {text : String} {n : Node} (h : read? text = some n) : n.Fits maxDepth := by
  obtain ⟨tokens, _, h⟩ := Option.bind_eq_some_iff.1 h
  obtain ⟨doc, _, h⟩ := Option.bind_eq_some_iff.1 h
  unfold Document.content? at h
  split at h
  · cases h
    exact .null _
  · next root _ =>
    obtain ⟨⟨m, after⟩, hm, rfl⟩ := Option.map_eq_some_iff.1 h
    exact doc.node?_fits .distinct maxDepth root _ _ _ hm

/-! ## Values -/

theorem depthItems_le_iff {k : Nat} {items : List Value} :
    Value.depthItems items ≤ k ↔ ∀ v ∈ items, v.depth ≤ k := by
  induction items with
  | nil => simp [Value.depthItems]
  | cons v rest ih => rw [Value.depthItems, Nat.max_le, ih, List.forall_mem_cons]

theorem depthFields_le_iff {k : Nat} {fields : List (String × Value)} :
    Value.depthFields fields ≤ k ↔ ∀ p ∈ fields, p.2.depth ≤ k := by
  induction fields with
  | nil => simp [Value.depthFields]
  | cons p rest ih => rw [Value.depthFields, Nat.max_le, ih, List.forall_mem_cons]

namespace Node

theorem exists_of_mem_toItems? {items : List Node} {values : List Value}
    (h : toItems? items = some values) {v : Value} (hv : v ∈ values) :
    ∃ n ∈ items, n.toValue? = some v := by
  obtain ⟨ps, rfl, rfl, hps⟩ := toItems?_eq_some_iff.1 h
  obtain ⟨p, hp, rfl⟩ := List.mem_map.1 hv
  exact ⟨p.1, List.mem_map_of_mem hp, hps p hp⟩

theorem exists_of_mem_toFields? {entries : List (Node × Node)} {fields : List (String × Value)}
    (h : toFields? entries = some fields) {p : String × Value} (hp : p ∈ fields) :
    ∃ e ∈ entries, e.2.toValue? = some p.2 := by
  induction entries generalizing fields with
  | nil =>
    cases h
    cases hp
  | cons e rest ih =>
    unfold toFields? at h
    split at h
    · next name v others _ hv hothers =>
      cases h
      rcases List.mem_cons.1 hp with rfl | hp
      · exact ⟨e, List.mem_cons_self, hv⟩
      · obtain ⟨e', he', hvalue⟩ := ih hothers hp
        exact ⟨e', List.mem_cons_of_mem _ he', hvalue⟩
    · cases h

/-- A value is nested no deeper than the node that it is the value of. -/
theorem Fits.depth_le {k : Nat} {n : Node} (h : n.Fits k) {v : Value} (hv : n.toValue? = some v) :
    v.depth ≤ k := by
  induction h generalizing v with
  | null k =>
    cases hv
    exact Nat.zero_le k
  | bool k b =>
    cases hv
    exact Nat.zero_le k
  | int k i =>
    cases hv
    exact Nat.zero_le k
  | float k x =>
    cases hv
    unfold Value.ofFloat
    split <;> exact Nat.zero_le k
  | text k s =>
    cases hv
    exact Nat.zero_le k
  | sequence _ ih =>
    obtain ⟨values, hvalues, rfl⟩ := Option.map_eq_some_iff.1 hv
    refine Nat.succ_le_succ (depthItems_le_iff.2 fun v hv => ?_)
    obtain ⟨n, hn, hvalue⟩ := exists_of_mem_toItems? hvalues hv
    exact ih n hn hvalue
  | mapping _ ih =>
    obtain ⟨fields, hfields, rfl⟩ := Option.map_eq_some_iff.1 hv
    refine Nat.succ_le_succ (depthFields_le_iff.2 fun p hp => ?_)
    obtain ⟨e, he, hvalue⟩ := exists_of_mem_toFields? hfields (Dict.mem_of_mem_ofPairs hp)
    exact ih e he hvalue
  | tagged tag _ _ => cases hv

/-- The node of a value is nested no deeper than the value. -/
theorem fits_ofValue {k : Nat} {v : Value} (h : v.depth ≤ k) : (ofValue v).Fits k := by
  induction k generalizing v with
  | zero =>
    cases v with
    | null => exact .null 0
    | bool b => exact .bool 0 b
    | int i => exact .int 0 i
    | float x => exact .float 0 x
    | text s => exact .text 0 s
    | list items => exact absurd h (Nat.not_succ_le_zero _)
    | object fields => exact absurd h (Nat.not_succ_le_zero _)
  | succ k ih =>
    cases v with
    | null => exact .null _
    | bool b => exact .bool _ b
    | int i => exact .int _ i
    | float x => exact .float _ x
    | text s => exact .text _ s
    | list items =>
      rw [ofValue, ofItems_eq_map]
      refine .sequence fun n hn => ?_
      obtain ⟨v, hv, rfl⟩ := List.mem_map.1 hn
      exact ih (depthItems_le_iff.1 (Nat.le_of_succ_le_succ h) v hv)
    | object fields =>
      rw [ofValue, ofFields_eq_map]
      refine .mapping fun p hp => ?_
      obtain ⟨q, hq, rfl⟩ := List.mem_map.1 hp
      exact ih (depthFields_le_iff.1 (Nat.le_of_succ_le_succ h) q hq)

end Node

namespace Entries

/-- What stands in a record is nested less deeply than the record. -/
theorem fits_of_named? {name? : Node → Option (Option String)} {k : Nat}
    {entries : List (Node × Node)} (hentries : ∀ p ∈ entries, p.2.Fits k) {es : Entries}
    (h : named? name? entries = some es) : ∀ e ∈ es, e.2.Fits k := by
  induction entries generalizing es with
  | nil =>
    cases h
    simp
  | cons p rest ih =>
    obtain ⟨hp, hrest⟩ := List.forall_mem_cons.1 hentries
    unfold named? at h
    split at h
    · next name others _ hothers =>
      cases h
      exact List.forall_mem_cons.2 ⟨hp, ih hrest hothers⟩
    · next others _ hothers =>
      cases h
      exact ih hrest hothers
    · cases h

end Entries

end Yaml

end WorkflowGraph
