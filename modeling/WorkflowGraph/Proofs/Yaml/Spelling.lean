import WorkflowGraph.Proofs.Dict
import WorkflowGraph.Proofs.Yaml.Document
import WorkflowGraph.Yaml.Record

/-!
# Nodes that spell values

A node without tags whose keys are texts and whose numbers are finite spells a value
(`Node.spells_of_toValue?`). The value of a mapping has its fields in rising order, whatever their
order in the mapping, so the node that is made of the value differs from the first one in the order
of entries. Such nodes are alike (`Node.Alike`). What stands under a name is alike as well, so a
reader that looks entries up by their names reads the same from both (`Node.Respects`).
-/

set_option autoImplicit false

namespace WorkflowGraph.Yaml

namespace Node

mutual

/-- Whether a node has no tags, and no number in it is infinite or none at all. -/
def isPlain : Node → Bool
  | .float x => x.isFinite
  | .sequence items => arePlain items
  | .mapping entries => arePlainEntries entries
  | .tagged _ _ => false
  | _ => true

/-- Whether all items of a sequence are plain. -/
def arePlain : List Node → Bool
  | [] => true
  | n :: rest => isPlain n && arePlain rest

/-- Whether all keys and contents of a mapping are plain. -/
def arePlainEntries : List (Node × Node) → Bool
  | [] => true
  | (k, v) :: rest => isPlain k && isPlain v && arePlainEntries rest

end

/-- Whether a node spells a value. The entries of a mapping may stand in any order. -/
inductive Spells : Node → Value → Prop where
  | null : Spells .null .null
  | bool (b : Bool) : Spells (.bool b) (.bool b)
  | int (k : Int) : Spells (.int k) (.int k)
  | float {x : Float} (h : x.isFinite = true) : Spells (.float x) (.float x)
  | text (s : String) : Spells (.text s) (.text s)
  | sequence {items : List Node} {values : List Value} (ps : List (Node × Value))
    (hitems : items = ps.map Prod.fst) (hvalues : values = ps.map Prod.snd)
    (h : ∀ p ∈ ps, Spells p.1 p.2) : Spells (.sequence items) (.list values)
  | mapping {entries : List (Node × Node)} {fields : Fields} (ps : List (String × Node × Value))
    (hentries : entries = ps.map fun p => (.text p.1, p.2.1))
    (hfields : (ps.map fun p => (p.1, p.2.2)).Perm fields) (hrising : fields.Rising)
    (h : ∀ p ∈ ps, Spells p.2.1 p.2.2) : Spells (.mapping entries) (.object fields)

theorem ofItems_eq_map (values : List Value) : ofItems values = values.map ofValue := by
  induction values with
  | nil => rfl
  | cons v rest ih => rw [ofItems, ih, List.map_cons]

theorem ofFields_eq_map (fields : Fields) :
    ofFields fields = fields.map fun p => (.text p.1, ofValue p.2) := by
  induction fields with
  | nil => rfl
  | cons p rest ih => rw [ofFields, ih, List.map_cons]

/-! ## The value that a node spells -/

theorem toItems?_eq_some_iff {items : List Node} {values : List Value} :
    toItems? items = some values ↔
      ∃ ps : List (Node × Value), items = ps.map Prod.fst ∧ values = ps.map Prod.snd ∧
        ∀ p ∈ ps, toValue? p.1 = some p.2 := by
  constructor
  · intro h
    induction items generalizing values with
    | nil =>
      cases h
      exact ⟨[], rfl, rfl, fun p hp => absurd hp List.not_mem_nil⟩
    | cons n rest ih =>
      unfold toItems? at h
      split at h
      · next v vs hn hrest =>
        cases h
        obtain ⟨ps, rfl, rfl, hps⟩ := ih hrest
        exact ⟨(n, v) :: ps, rfl, rfl, List.forall_mem_cons.2 ⟨hn, hps⟩⟩
      · cases h
  · rintro ⟨ps, rfl, rfl, hps⟩
    induction ps with
    | nil => rfl
    | cons p rest ih =>
      obtain ⟨hp, hrest⟩ := List.forall_mem_cons.1 hps
      rw [List.map_cons, toItems?, hp, ih hrest]
      rfl

theorem toFields?_map {ps : List (String × Node × Value)}
    (h : ∀ p ∈ ps, toValue? p.2.1 = some p.2.2) :
    toFields? (ps.map fun p => (.text p.1, p.2.1)) = some (ps.map fun p => (p.1, p.2.2)) := by
  induction ps with
  | nil => rfl
  | cons p rest ih =>
    obtain ⟨hp, hrest⟩ := List.forall_mem_cons.1 h
    rw [List.map_cons, toFields?, hp, ih hrest]
    rfl

theorem exists_of_toFields? {entries : List (Node × Node)} {pairs : List (String × Value)}
    (hplain : arePlainEntries entries = true) (h : toFields? entries = some pairs) :
    ∃ ps : List (String × Node × Value), (entries = ps.map fun p => (.text p.1, p.2.1)) ∧
      (pairs = ps.map fun p => (p.1, p.2.2)) ∧
      ∀ p ∈ ps, toValue? p.2.1 = some p.2.2 ∧ isPlain p.2.1 = true := by
  induction entries generalizing pairs with
  | nil =>
    cases h
    exact ⟨[], rfl, rfl, fun p hp => absurd hp List.not_mem_nil⟩
  | cons e rest ih =>
    obtain ⟨k, n⟩ := e
    simp only [arePlainEntries, Bool.and_eq_true] at hplain
    obtain ⟨⟨hk, hn⟩, hrest⟩ := hplain
    unfold toFields? at h
    split at h
    · next name v more hname hv hmore =>
      cases h
      obtain ⟨ps, rfl, rfl, hps⟩ := ih hrest hmore
      have hkey : k = .text name := by
        cases k with
        | tagged tag m => cases hk
        | _ => exact hname
      rw [hkey]
      exact ⟨(name, n, v) :: ps, rfl, rfl, List.forall_mem_cons.2 ⟨⟨hv, hn⟩, hps⟩⟩
    · cases h

theorem isPlain_of_mem {items : List Node} (h : arePlain items = true) {n : Node}
    (hn : n ∈ items) : isPlain n = true := by
  induction items with
  | nil => cases hn
  | cons m rest ih =>
    simp only [arePlain, Bool.and_eq_true] at h
    rcases List.mem_cons.1 hn with rfl | hn
    · exact h.1
    · exact ih h.2 hn

theorem names_perm {ps : List (String × Node × Value)} {fields : Fields}
    (h : (ps.map fun p => (p.1, p.2.2)).Perm fields) :
    (ps.map Prod.fst).Perm fields.names := by
  have hnames := h.map Prod.fst
  rwa [List.map_map] at hnames

/-- A plain node with a value spells it, where no mapping holds a key twice. -/
theorem spells_of_toValue? {n : Node} (hdistinct : n.Distinct) (hplain : n.isPlain = true)
    {v : Value} (h : n.toValue? = some v) : n.Spells v := by
  induction hdistinct generalizing v with
  | null => cases h; exact .null
  | bool b => cases h; exact .bool b
  | int k => cases h; exact .int k
  | text s => cases h; exact .text s
  | float x =>
    have hfinite : x.isFinite = true := hplain
    rw [toValue?, Value.ofFloat, if_pos hfinite] at h
    cases h
    exact .float hfinite
  | tagged tag _ _ => cases hplain
  | sequence _ ih =>
    obtain ⟨values, hvalues, rfl⟩ := Option.map_eq_some_iff.1 h
    obtain ⟨ps, rfl, rfl, hps⟩ := toItems?_eq_some_iff.1 hvalues
    refine .sequence ps rfl rfl fun p hp => ?_
    have hmem : p.1 ∈ ps.map Prod.fst := List.mem_map_of_mem hp
    exact ih p.1 hmem (isPlain_of_mem hplain hmem) (hps p hp)
  | mapping hkeys _ ih =>
    obtain ⟨pairs, hpairs, rfl⟩ := Option.map_eq_some_iff.1 h
    obtain ⟨ps, rfl, rfl, hps⟩ := exists_of_toFields? hplain hpairs
    have hnames : ((ps.map fun p => (p.1, p.2.2)).map Prod.fst).Nodup := by
      rw [List.map_map]
      refine List.pairwise_map.2 ((List.pairwise_map.1 hkeys).imp fun hne heq => ?_)
      rw [same, beq_eq_false_iff_ne] at hne
      exact hne heq
    refine .mapping ps rfl (Dict.perm_ofPairs hnames).symm (Dict.rising_ofPairs _) fun p hp => ?_
    have hmem : ((.text p.1, p.2.1) : Node × Node) ∈ ps.map fun p => (.text p.1, p.2.1) :=
      List.mem_map_of_mem (f := fun p : String × Node × Value => (Node.text p.1, p.2.1)) hp
    exact ih _ hmem (hps p hp).2 (hps p hp).1

theorem untaggedItems_of_forall {items : List Node} (h : ∀ n ∈ items, n.untagged = true) :
    untaggedItems items = true := by
  induction items with
  | nil => rfl
  | cons n rest ih =>
    obtain ⟨hn, hrest⟩ := List.forall_mem_cons.1 h
    rw [untaggedItems, hn, ih hrest]
    rfl

theorem untaggedEntries_of_forall {entries : List (Node × Node)}
    (h : ∀ p ∈ entries, p.1.untagged = true ∧ p.2.untagged = true) :
    untaggedEntries entries = true := by
  induction entries with
  | nil => rfl
  | cons p rest ih =>
    obtain ⟨⟨hk, hv⟩, hrest⟩ := List.forall_mem_cons.1 h
    rw [untaggedEntries, hk, hv, ih hrest]
    rfl

namespace Spells

variable {n : Node} {v : Value}

theorem toValue? (h : n.Spells v) : n.toValue? = some v := by
  induction h with
  | null | bool | int | text => rfl
  | float hfinite => rw [Node.toValue?, Value.ofFloat, if_pos hfinite]
  | sequence ps hitems hvalues _ ih =>
    rw [Node.toValue?, toItems?_eq_some_iff.2 ⟨ps, hitems, hvalues, ih⟩]
    rfl
  | mapping ps hentries hfields hrising _ ih =>
    have hnames : ((ps.map fun p => (p.1, p.2.2)).map Prod.fst).Nodup :=
      (hfields.map Prod.fst).nodup_iff.2 hrising.nodup_names
    rw [hentries, Node.toValue?, toFields?_map ih, Option.map_some,
      Dict.ofPairs_eq_of_perm hnames hfields, hrising.ofPairs_eq]

theorem untagged (h : n.Spells v) : n.untagged = true := by
  induction h with
  | null | bool | int | text | float => rfl
  | sequence ps hitems _ _ ih =>
    rw [hitems, Node.untagged]
    exact untaggedItems_of_forall (List.forall_mem_map.2 ih)
  | mapping ps hentries _ _ _ ih =>
    rw [hentries, Node.untagged]
    exact untaggedEntries_of_forall (List.forall_mem_map.2 fun p hp => ⟨rfl, ih p hp⟩)

/-- The node that is made of the value spells it too. -/
theorem of_value (h : n.Spells v) : (ofValue v).Spells v := by
  induction h with
  | null => exact .null
  | bool b => exact .bool b
  | int k => exact .int k
  | text s => exact .text s
  | float hfinite => exact .float hfinite
  | sequence ps _ hvalues _ ih =>
    refine .sequence (ps.map fun p => (ofValue p.2, p.2)) ?_ ?_ (List.forall_mem_map.2 ih)
    · rw [ofItems_eq_map, hvalues, List.map_map, List.map_map]
      rfl
    · rw [hvalues, List.map_map]
      rfl
  | @mapping _ fields ps _ hfields hrising _ ih =>
    refine .mapping (fields.map fun p => (p.1, ofValue p.2, p.2)) ?_ ?_ hrising
      (List.forall_mem_map.2 fun p hp => ?_)
    · rw [ofFields_eq_map, List.map_map]
      rfl
    · rw [List.map_map]
      exact .of_eq (List.map_id fields)
    · obtain ⟨q, hq, rfl⟩ := List.mem_map.1 (hfields.mem_iff.2 hp)
      exact ih q hq

end Spells

end Node

end WorkflowGraph.Yaml
