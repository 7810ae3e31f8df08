import Mathlib.Data.List.Forall2
import Mathlib.Data.List.Nodup
import WorkflowGraph.Proofs.Yaml.Spelling

/-!
# Reading nodes that are alike

The node that is made of a value differs from a node that spells the value in the order of entries
only: the two are alike (`Node.Alike`). A reader respects this where it reads the same from both
(`Node.Respects`), and it does where it looks entries up by their names and reads respectfully what
it finds.
-/

set_option autoImplicit false

namespace WorkflowGraph.Yaml

/-- Whether the second node is made of the value that the first one spells. -/
def Node.Alike (n m : Node) : Prop := ∃ v, n.Spells v ∧ m = .ofValue v

/-- Whether a reader reads the same from nodes that are alike. -/
def Node.Respects {α : Type} (read : Node → α) : Prop := ∀ n m : Node, n.Alike m → read n = read m

namespace Entries

/-- The mapping that holds some entries under keys that are texts. -/
def texts (es : Entries) : List (Node × Node) := es.map fun e => (.text e.1, e.2)

/-- Whether entries have the same names as others, each once, and what stands under each is alike.
The others stand in rising order of their names. -/
structure Reordered (es others : Entries) : Prop where
  nodup : (es.map Prod.fst).Nodup
  rising : Dict.Rising others
  exists_perm : ∃ between : Entries,
    List.Forall₂ (fun e f => e.1 = f.1 ∧ e.2.Alike f.2) es between ∧ between.Perm others

/-- Whether the fields of a record are the same in two lists of entries. -/
structure Alike (es others : Entries) : Prop where
  found (name : String) : Option.Rel Node.Alike (es.get? name) (others.get? name)
  once (names : List String) : es.once names = others.once names
  untagged : es.untagged = others.untagged

theorem get?_eq (es : Entries) (name : String) : es.get? name = Dict.get? es name := by
  induction es with
  | nil => rfl
  | cons e rest ih =>
    unfold get? at ih ⊢
    rw [Dict.get?_cons, List.find?_cons]
    by_cases h : e.1 = name
    · rw [if_pos h, beq_iff_eq.2 h]
      rfl
    · rw [if_neg h, beq_eq_false_iff_ne.2 h]
      exact ih

theorem lookup?_texts (es : Entries) (name : String) :
    Node.lookup? es.texts name = es.get? name := by
  rw [get?_eq]
  induction es with
  | nil => rfl
  | cons e rest ih => rw [texts, List.map_cons, Node.lookup?, Dict.get?_cons, ← ih, texts]

theorem named?_texts {name? : Node → Option (Option String)}
    (h : ∀ s, name? (.text s) = some (some s)) (es : Entries) :
    named? name? es.texts = some es := by
  induction es with
  | nil => rfl
  | cons e rest ih =>
    rw [texts] at ih ⊢
    rw [List.map_cons, named?, h, ih]

/-- Whether fields are given once is a matter of the names alone. -/
theorem once_eq (es : Entries) (names : List String) :
    es.once names = names.all fun name => decide ((es.map Prod.fst).count name ≤ 1) := by
  unfold once
  congr 1
  funext name
  rw [List.count, List.countP_map, List.countP_eq_length_filter]
  rfl

theorem once_of_nodup {es : Entries} (h : (es.map Prod.fst).Nodup) (names : List String) :
    es.once names = true := by
  rw [once_eq]
  exact List.all_eq_true.2 fun name _ => decide_eq_true (List.nodup_iff_count_le_one.1 h name)

variable {es others : Entries}

theorem names_eq_of_forall₂ (h : List.Forall₂ (fun e f => e.1 = f.1 ∧ e.2.Alike f.2) es others) :
    es.map Prod.fst = others.map Prod.fst := by
  induction h with
  | nil => rfl
  | cons hef _ ih => rw [List.map_cons, List.map_cons, hef.1, ih]

theorem found_of_forall₂ (h : List.Forall₂ (fun e f => e.1 = f.1 ∧ e.2.Alike f.2) es others)
    (name : String) : Option.Rel Node.Alike (es.get? name) (others.get? name) := by
  rw [get?_eq, get?_eq]
  induction h with
  | nil => exact .none
  | @cons e f _ _ hef _ ih =>
    rw [Dict.get?_cons, Dict.get?_cons, hef.1]
    split
    · exact .some hef.2
    · exact ih

theorem untagged_of_forall₂ (h : List.Forall₂ (fun e f => e.1 = f.1 ∧ e.2.Alike f.2) es others) :
    es.untagged = true ∧ others.untagged = true := by
  induction h with
  | nil => exact ⟨rfl, rfl⟩
  | cons hef _ ih =>
    obtain ⟨v, hv, hf⟩ := hef.2
    unfold untagged at ih ⊢
    rw [List.all_cons, List.all_cons, hv.untagged, hf, hv.of_value.untagged, ih.1, ih.2]
    exact ⟨rfl, rfl⟩

/-- Entries in one order under the same names. -/
theorem alike_of_forall₂ (h : List.Forall₂ (fun e f => e.1 = f.1 ∧ e.2.Alike f.2) es others) :
    es.Alike others where
  found := found_of_forall₂ h
  once names := by rw [once_eq, once_eq, names_eq_of_forall₂ h]
  untagged := by
    rw [(untagged_of_forall₂ h).1, (untagged_of_forall₂ h).2]

theorem Reordered.length_eq (h : es.Reordered others) : es.length = others.length := by
  obtain ⟨between, hbetween, hperm⟩ := h.exists_perm
  exact hbetween.length_eq.trans hperm.length_eq

theorem Reordered.alike (h : es.Reordered others) : es.Alike others := by
  obtain ⟨between, hbetween, hperm⟩ := h.exists_perm
  have hnames : (between.map Prod.fst).Nodup := by
    rw [← names_eq_of_forall₂ hbetween]
    exact h.nodup
  obtain ⟨huntagged, hbetweens⟩ := untagged_of_forall₂ hbetween
  refine ⟨fun name => ?_, fun names => ?_, ?_⟩
  · have hfound := found_of_forall₂ hbetween name
    rwa [get?_eq between, Dict.get?_eq_of_perm hnames hperm, ← get?_eq] at hfound
  · rw [once_of_nodup h.nodup, once_of_nodup ((hperm.map Prod.fst).nodup_iff.1 hnames)]
  · rw [huntagged]
    exact (List.all_eq_true.2 fun e he => List.all_eq_true.1 hbetweens e (hperm.mem_iff.2 he)).symm

/-- Entries that rise as well stand in the same order as the others. -/
theorem Reordered.forall₂ (h : es.Reordered others) (hes : Dict.Rising es) :
    List.Forall₂ (fun e f => e.1 = f.1 ∧ e.2.Alike f.2) es others := by
  obtain ⟨between, hbetween, hperm⟩ := h.exists_perm
  have hrising : Dict.Rising between := by
    refine List.pairwise_map.1 ?_
    rw [← names_eq_of_forall₂ hbetween]
    exact List.pairwise_map.2 hes
  rwa [← hrising.eq_of_perm h.rising hperm]

theorem Reordered.untagged (h : es.Reordered others) :
    es.untagged = true ∧ others.untagged = true := by
  obtain ⟨between, hbetween, _⟩ := h.exists_perm
  obtain ⟨huntagged, _⟩ := untagged_of_forall₂ hbetween
  rw [← h.alike.untagged, huntagged]
  exact ⟨rfl, rfl⟩

end Entries

namespace Node

variable {α : Type} {read : Node → α}

/-- Whether a node is neither a collection nor under a tag. -/
def isScalar : Node → Bool
  | .sequence _ | .mapping _ | .tagged _ _ => false
  | _ => true

/-- Two nodes that are alike have the same parts: the items of a sequence are alike one by one, and
a mapping has the same entries in some order. -/
theorem Alike.parts {n m : Node} (h : n.Alike m) :
    (n = m ∧ n.isScalar = true) ∨
    (∃ items others, n = .sequence items ∧ m = .sequence others ∧ List.Forall₂ Alike items others) ∨
    ∃ es others : Entries, n = .mapping es.texts ∧ m = .mapping others.texts ∧
      es.Reordered others := by
  obtain ⟨v, h, rfl⟩ := h
  cases h with
  | null | bool | int | float | text => exact .inl ⟨rfl, rfl⟩
  | sequence ps hitems hvalues h =>
    refine .inr (.inl ⟨_, _, rfl, rfl, ?_⟩)
    rw [hitems, ofItems_eq_map, hvalues, List.map_map, List.forall₂_map_left_iff,
      List.forall₂_map_right_iff, List.forall₂_same]
    exact fun p hp => ⟨p.2, h p hp, rfl⟩
  | @mapping _ fields ps hentries hfields hrising h =>
    refine .inr (.inr ⟨ps.map fun p => (p.1, p.2.1), fields.map fun p => (p.1, ofValue p.2), ?_, ?_,
      ?_, ?_, ps.map fun p => (p.1, ofValue p.2.2), ?_, ?_⟩)
    · rw [hentries, Entries.texts, List.map_map]
      rfl
    · rw [ofValue, ofFields_eq_map, Entries.texts, List.map_map]
      rfl
    · rw [List.map_map]
      exact (names_perm hfields).nodup_iff.2 hrising.nodup_names
    · exact List.pairwise_map.2 hrising
    · rw [List.forall₂_map_left_iff, List.forall₂_map_right_iff, List.forall₂_same]
      exact fun p hp => ⟨rfl, p.2.2, h p hp, rfl⟩
    · have hperm := hfields.map fun p => (p.1, ofValue p.2)
      rwa [List.map_map] at hperm

/-- A reader respects alikeness where it does so on sequences and on mappings. -/
theorem respects_of
    (hsequence : ∀ items others, (sequence items).Alike (.sequence others) →
      List.Forall₂ Alike items others → read (.sequence items) = read (.sequence others))
    (hmapping : ∀ es others : Entries, (mapping es.texts).Alike (.mapping others.texts) →
      es.Reordered others → read (.mapping es.texts) = read (.mapping others.texts)) :
    Respects read := by
  intro n m h
  rcases h.parts with ⟨rfl, _⟩ | ⟨items, others, rfl, rfl, hitems⟩ |
    ⟨es, others, rfl, rfl, hentries⟩
  · rfl
  · exact hsequence items others h hitems
  · exact hmapping es others h hentries

/-! ## Scalars -/

theorem respects_text? : Respects text? := respects_of (fun _ _ _ _ => rfl) fun _ _ _ _ => rfl

theorem respects_nat? : Respects nat? := respects_of (fun _ _ _ _ => rfl) fun _ _ _ _ => rfl

theorem respects_flag? : Respects flag? := respects_of (fun _ _ _ _ => rfl) fun _ _ _ _ => rfl

theorem respects_name? : Respects name? := respects_of (fun _ _ _ _ => rfl) fun _ _ _ _ => rfl

theorem respects_isNull : Respects isNull := respects_of (fun _ _ _ _ => rfl) fun _ _ _ _ => rfl

theorem respects_duration? : Respects duration? := fun n m h => by
  rw [duration?, duration?, respects_text? n m h]

/-- The value that a node spells is the value of the node that is made of it. -/
theorem respects_toValue? : Respects toValue? := by
  rintro n _ ⟨v, h, rfl⟩
  rw [h.toValue?, h.of_value.toValue?]

theorem respects_isNothing : Respects isNothing := by
  refine respects_of (fun _ _ _ _ => rfl) fun es others _ h => ?_
  have hlength := h.length_eq
  cases es <;> cases others
  · rfl
  · cases hlength
  · cases hlength
  · rfl

theorem Respects.optional? {read : Node → Option α} (h : Respects read) :
    Respects (optional? read) :=
  respects_of (fun _ _ hlike _ => congrArg (Option.map some) (h _ _ hlike))
    fun _ _ hlike _ => congrArg (Option.map some) (h _ _ hlike)

/-! ## Collections -/

theorem Respects.all? {read : Node → Option α} (h : Respects read) {items others : List Node}
    (hitems : List.Forall₂ Alike items others) : all? read items = all? read others := by
  induction hitems with
  | nil => rfl
  | cons hlike _ ih => rw [Node.all?, Node.all?, h _ _ hlike, ih]

theorem Respects.list? {read : Node → Option α} (h : Respects read) : Respects (list? read) :=
  respects_of (fun _ _ _ hitems => h.all? hitems) fun _ _ _ _ => rfl

theorem allEntries?_cons_eq_some_iff {read : Node → Option α} {e : String × Node} {rest : Entries}
    {pairs : List (String × α)} :
    allEntries? read (Entries.texts (e :: rest)) = some pairs ↔
      ∃ a as, read e.2 = some a ∧ allEntries? read rest.texts = some as ∧
        pairs = (e.1, a) :: as := by
  rw [Entries.texts, List.map_cons, allEntries?, ← Entries.texts]
  constructor
  · intro h
    split at h
    · next name a as hname ha has =>
      cases h
      cases hname
      exact ⟨a, as, ha, has, rfl⟩
    · cases h
  · rintro ⟨a, as, ha, has, rfl⟩
    rw [ha, has]
    rfl

theorem names_of_allEntries? {read : Node → Option α} {es : Entries} {pairs : List (String × α)}
    (h : allEntries? read es.texts = some pairs) : pairs.map Prod.fst = es.map Prod.fst := by
  induction es generalizing pairs with
  | nil =>
    cases h
    rfl
  | cons e rest ih =>
    obtain ⟨a, as, _, has, rfl⟩ := allEntries?_cons_eq_some_iff.1 h
    rw [List.map_cons, ih has, List.map_cons]

theorem Respects.allEntries?_eq {read : Node → Option α} (h : Respects read) {es others : Entries}
    (hentries : List.Forall₂ (fun e f => e.1 = f.1 ∧ e.2.Alike f.2) es others) :
    allEntries? read es.texts = allEntries? read others.texts := by
  induction hentries with
  | nil => rfl
  | @cons e f _ _ hef _ ih =>
    unfold Entries.texts at ih ⊢
    rw [List.map_cons, List.map_cons, allEntries?, allEntries?, ih, h _ _ hef.2, hef.1]

/-- Entries in another order give what is read in that order. By induction on the exchanges. -/
theorem exists_perm_of_allEntries? {read : Node → Option α} {es others : Entries}
    (h : es.Perm others) {pairs : List (String × α)}
    (hpairs : allEntries? read es.texts = some pairs) :
    ∃ found, allEntries? read others.texts = some found ∧ pairs.Perm found := by
  induction h generalizing pairs with
  | nil => exact ⟨pairs, hpairs, .refl _⟩
  | cons e _ ih =>
    obtain ⟨a, as, ha, has, rfl⟩ := allEntries?_cons_eq_some_iff.1 hpairs
    obtain ⟨found, hfound, hperm⟩ := ih has
    exact ⟨_, allEntries?_cons_eq_some_iff.2 ⟨a, found, ha, hfound, rfl⟩, hperm.cons _⟩
  | swap e f rest =>
    obtain ⟨b, bs, hb, hbs, rfl⟩ := allEntries?_cons_eq_some_iff.1 hpairs
    obtain ⟨a, as, ha, has, rfl⟩ := allEntries?_cons_eq_some_iff.1 hbs
    have hinner := allEntries?_cons_eq_some_iff.2 ⟨b, as, hb, has, rfl⟩
    exact ⟨_, allEntries?_cons_eq_some_iff.2 ⟨a, _, ha, hinner, rfl⟩, .swap _ _ _⟩
  | trans _ _ ih₁ ih₂ =>
    obtain ⟨between, hbetween, hfirst⟩ := ih₁ hpairs
    obtain ⟨found, hfound, hsecond⟩ := ih₂ hbetween
    exact ⟨found, hfound, hfirst.trans hsecond⟩

theorem Respects.dict? {read : Node → Option α} (h : Respects read) : Respects (dict? read) := by
  refine respects_of (fun _ _ _ _ => rfl) fun es others _ hentries => ?_
  obtain ⟨between, hbetween, hperm⟩ := hentries.exists_perm
  change (allEntries? read es.texts).map Dict.ofPairs =
    (allEntries? read others.texts).map Dict.ofPairs
  rw [h.allEntries?_eq hbetween]
  cases hpairs : allEntries? read between.texts with
  | some pairs =>
    obtain ⟨found, hfound, hpaired⟩ := exists_perm_of_allEntries? hperm hpairs
    have hnodup : (pairs.map Prod.fst).Nodup := by
      rw [names_of_allEntries? hpairs, ← Entries.names_eq_of_forall₂ hbetween]
      exact hentries.nodup
    rw [hfound, Option.map_some, Option.map_some, Dict.ofPairs_eq_of_perm hnodup hpaired]
  | none =>
    cases hfound : allEntries? read others.texts with
    | none => rfl
    | some found =>
      obtain ⟨pairs, hsome, _⟩ := exists_perm_of_allEntries? hperm.symm hfound
      rw [hpairs] at hsome
      cases hsome

/-- A choice is a text, or a mapping with one entry, and one entry has one order. -/
theorem respects_choice? (ofName? : String → Option α) (all : List α) :
    Respects (choice? ofName? all) := by
  refine respects_of (fun _ _ _ _ => rfl) fun es others _ hentries => ?_
  obtain ⟨between, hbetween, hperm⟩ := hentries.exists_perm
  match hbetween with
  | .nil => rw [List.nil_perm.1 hperm]
  | .cons (b := f) hef .nil =>
    obtain rfl := List.singleton_perm.1 hperm
    obtain ⟨name, n⟩ := f
    have hname : _ = name := hef.1
    subst hname
    change (if Node.isNothing _ then _ else none) = if Node.isNothing n then _ else none
    rw [respects_isNothing _ _ hef.2]
  | .cons _ (.cons _ _) =>
    have hlength := hperm.length_eq
    match others, hlength with
    | _ :: _ :: _, _ => rfl

/-! ## Entries -/

/-- What is found in a mapping. -/
theorem Alike.get? {n m : Node} (h : n.Alike m) (name : String) :
    Option.Rel Alike (n.get? name) (m.get? name) := by
  rcases h.parts with ⟨rfl, hscalar⟩ | ⟨items, others, rfl, rfl, _⟩ |
    ⟨es, others, rfl, rfl, hentries⟩
  · cases n <;> first | exact .none | cases hscalar
  · exact .none
  · change Option.Rel Alike (lookup? es.texts name) (lookup? others.texts name)
    rw [Entries.lookup?_texts, Entries.lookup?_texts]
    exact hentries.alike.found name

theorem record?_texts (names : List String) (es : Entries) :
    record? names (.mapping es.texts) = if es.once names then some es else none := by
  have hnamed : Entries.named? textKey? es.texts = some es := Entries.named?_texts (fun _ => rfl) es
  change (Entries.named? textKey? es.texts).bind _ = _
  rw [hnamed]
  rfl

/-- The entries of a record, whose keys are texts. -/
theorem Alike.record? {n m : Node} (h : n.Alike m) (names : List String) :
    Option.Rel Entries.Alike (n.record? names) (m.record? names) := by
  rcases h.parts with ⟨rfl, hscalar⟩ | ⟨items, others, rfl, rfl, _⟩ |
    ⟨es, others, rfl, rfl, hentries⟩
  · cases n <;> first | exact .some (Entries.alike_of_forall₂ .nil) | exact .none | cases hscalar
  · exact .none
  · rw [record?_texts, record?_texts, hentries.alike.once]
    split
    · exact .some hentries.alike
    · exact .none

/-- A reader of records that looks fields up by their names. -/
theorem respects_record {names : List String} {read : Entries → Option α}
    (h : ∀ es others : Entries, es.Alike others → read es = read others) :
    Respects fun n => (n.record? names).bind read := by
  intro n m hlike
  dsimp only
  match n.record? names, m.record? names, hlike.record? names with
  | _, _, .none => rfl
  | some es, some others, .some hentries => exact h es others hentries

/-- The entries that stand in the order of the fields. -/
theorem inOrder?_alike {items others : List Node} (h : List.Forall₂ Alike items others)
    (names : List String) :
    Option.Rel Entries.Alike (Entries.inOrder? names items) (Entries.inOrder? names others) := by
  unfold Entries.inOrder?
  rw [h.length_eq]
  split
  · refine .some (Entries.alike_of_forall₂ ?_)
    clear * - h
    induction names generalizing items others with
    | nil => exact .nil
    | cons name rest ih =>
      cases h with
      | nil => exact .nil
      | cons hlike h => exact .cons ⟨rfl, hlike⟩ (ih h)
  · exact .none

theorem untaggedItems_eq {items others : List Node} (h : List.Forall₂ Alike items others) :
    untaggedItems items = untaggedItems others := by
  induction h with
  | nil => rfl
  | cons hlike _ ih =>
    obtain ⟨v, hv, rfl⟩ := hlike
    rw [untaggedItems, untaggedItems, hv.untagged, hv.of_value.untagged, ih]

end Node

namespace Entries.Alike

variable {α : Type} {read : Node → Option α} {es others : Entries}

theorem field? (h : es.Alike others) (hread : Node.Respects read) (name : String) :
    es.field? name read = others.field? name read := by
  unfold Entries.field?
  have hfound := h.found name
  generalize es.get? name = n, others.get? name = m at hfound
  cases hfound with
  | none => rfl
  | some hlike => exact hread _ _ hlike

theorem fieldOr? (h : es.Alike others) (hread : Node.Respects read) (name : String) (default : α) :
    es.fieldOr? name read default = others.fieldOr? name read default := by
  unfold Entries.fieldOr?
  have hfound := h.found name
  generalize es.get? name = n, others.get? name = m at hfound
  cases hfound with
  | none => rfl
  | some hlike => exact hread _ _ hlike

theorem fieldOptional? (h : es.Alike others) (hread : Node.Respects read) (name : String) :
    es.fieldOptional? name read = others.fieldOptional? name read :=
  h.fieldOr? hread.optional? name none

end Entries.Alike

end WorkflowGraph.Yaml
