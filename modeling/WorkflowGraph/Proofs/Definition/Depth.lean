import WorkflowGraph.Proofs.Compiler.Inline
import WorkflowGraph.Proofs.Yaml.Depth

/-!
# How deeply inline definitions are nested

A definition that stands inline in a node of a document lies deeper than the whole of it. So the
inline definitions of a definition are nested less deeply than the document that it is read from
(`Definition.inlineBelow_ofNode`), and a chain of inline definitions comes to an end.
-/

set_option autoImplicit false

namespace WorkflowGraph

open Yaml

/-- Whether the definition that is inline in a node, or in the node inside a map, is nested no
deeper than a number tells. -/
def NodeKind.InlineWithin (k : Nat) (kind : NodeKind) : Prop :=
  ∀ spec, kind.nested? = some spec → ∀ v, spec.definition = some v → v.depth ≤ k

/-- Whether all definitions that are inline in a definition are nested less deeply than a number
tells. -/
def Definition.InlineBelow (k : Nat) (d : Definition) : Prop :=
  ∀ n ∈ d.nodes, ∀ spec, n.kind.nested? = some spec → ∀ v, spec.definition = some v → v.depth < k

namespace NodeKind

variable {k : Nat} {es : Entries} {kind : NodeKind}

theorem InlineWithin.mono {l : Nat} (h : kind.InlineWithin k) (hle : k ≤ l) :
    kind.InlineWithin l :=
  fun spec hspec v hv => Nat.le_trans (h spec hspec v hv) hle

theorem inlineWithin_of_nested?_eq_none (h : kind.nested? = none) : kind.InlineWithin k := by
  intro spec hspec
  rw [h] at hspec
  cases hspec

theorem inlineWithin_of_subgraph? (hes : ∀ e ∈ es, e.2.Fits k) (h : subgraph? es = some kind) :
    kind.InlineWithin k := by
  obtain ⟨graph, _, h⟩ := Option.bind_eq_some_iff.1 h
  obtain ⟨definition, hdefinition, h⟩ := Option.bind_eq_some_iff.1 h
  obtain ⟨input, _, h⟩ := Option.bind_eq_some_iff.1 h
  obtain ⟨output, _, h⟩ := Option.bind_eq_some_iff.1 h
  obtain ⟨interrupt, _, h⟩ := Option.bind_eq_some_iff.1 h
  cases h
  rintro _ ⟨⟩ v hv
  dsimp only at hv
  subst hv
  unfold Entries.fieldOptional? Entries.fieldOr? at hdefinition
  split at hdefinition
  · cases hdefinition
  · next n hn =>
    obtain ⟨e, he, rfl⟩ := Entries.mem_of_get? es "definition" n hn
    unfold Node.optional? at hdefinition
    split at hdefinition
    · cases hdefinition
    · obtain ⟨v', hvalue, hsome⟩ := Option.map_eq_some_iff.1 hdefinition
      cases hsome
      exact (hes e he).depth_le hvalue

/-- Of the kinds that are no map, only a subgraph has an inline definition. -/
theorem inlineWithin_of_leaf? {name : String} (hes : ∀ e ∈ es, e.2.Fits k)
    (h : leaf? name es = some kind) : kind.InlineWithin k := by
  unfold leaf? at h
  split at h
  · simp only [transform?, Option.bind_eq_bind, Option.bind_eq_some_iff] at h
    obtain ⟨_, _, _, _, _, _, _, _, ⟨⟩⟩ := h
    exact inlineWithin_of_nested?_eq_none rfl
  · simp only [router?, Option.bind_eq_bind, Option.bind_eq_some_iff] at h
    obtain ⟨_, _, _, _, _, _, _, _, _, _, _, _, ⟨⟩⟩ := h
    exact inlineWithin_of_nested?_eq_none rfl
  · simp only [agent?, Option.bind_eq_bind, Option.bind_eq_some_iff] at h
    obtain ⟨_, _, _, _, _, _, _, _, _, _, ⟨⟩⟩ := h
    exact inlineWithin_of_nested?_eq_none rfl
  · simp only [interrupt?, Option.bind_eq_bind, Option.bind_eq_some_iff] at h
    obtain ⟨_, _, _, _, _, _, _, _, ⟨⟩⟩ := h
    exact inlineWithin_of_nested?_eq_none rfl
  · exact inlineWithin_of_subgraph? hes h
  · simp only [passthrough?, Option.bind_eq_bind, Option.bind_eq_some_iff] at h
    obtain ⟨_, _, _, _, _, _, ⟨⟩⟩ := h
    exact inlineWithin_of_nested?_eq_none rfl
  · cases h

/-- What stands in the body of the node inside a map is nested less deeply than the body. -/
theorem fits_of_innerEntriesOf? {body : Node} (hbody : body.Fits k) {name : String}
    (h : innerEntriesOf? body = some (name, es)) :
    ∃ below, k = below + 1 ∧ ∀ e ∈ es, e.2.Fits below := by
  unfold innerEntriesOf? at h
  split at h
  · next entries =>
    obtain ⟨below, rfl, hentries⟩ := hbody.entries rfl
    obtain ⟨name', _, h⟩ := Option.bind_eq_some_iff.1 h
    obtain ⟨es', hes, h⟩ := Option.bind_eq_some_iff.1 h
    split at h
    · cases h
      exact ⟨below, rfl, Entries.fits_of_named? hentries hes⟩
    · cases h
  · cases h

/-- The inline definition in the node inside a map lies within the body of the node. By induction on
the body, through the nodes inside further maps. -/
theorem inlineWithin_of_ofInner? {body : Node} (hbody : body.Fits k) {options : NodeOptions}
    (h : ofInner? body = some (kind, options)) : kind.InlineWithin k := by
  fun_induction ofInner? body generalizing k kind options with
  | case1 => cases h
  | case2 => cases h
  | case3 body es inner hinner innerKind innerOptions spec _ _ _ hread hentries _ ih =>
    cases h
    obtain ⟨below, rfl, hes⟩ := fits_of_innerEntriesOf? hbody hentries
    obtain ⟨e, he, rfl⟩ := Entries.mem_of_get? es "node" inner hinner
    have hwithin : innerKind.InlineWithin below := ih (hes e he) hread
    exact hwithin.mono (Nat.le_succ below)
  | case4 => cases h
  | case5 body name es hentries _ read options' hread hoptions =>
    cases h
    obtain ⟨below, rfl, hes⟩ := fits_of_innerEntriesOf? hbody hentries
    exact (inlineWithin_of_leaf? hes hoptions).mono (Nat.le_succ below)
  | case6 => cases h

theorem inlineWithin_of_ofEntries? {name : String} (hes : ∀ e ∈ es, e.2.Fits k)
    (h : ofEntries? name es = some kind) : kind.InlineWithin k := by
  unfold ofEntries? at h
  split at h
  · obtain ⟨⟨innerKind, innerOptions⟩, hinner, h⟩ := Option.bind_eq_some_iff.1 h
    obtain ⟨spec, _, h⟩ := Option.bind_eq_some_iff.1 h
    cases h
    obtain ⟨n, hn, hread⟩ := Option.bind_eq_some_iff.1 hinner
    obtain ⟨e, he, rfl⟩ := Entries.mem_of_get? es "node" n hn
    have hwithin : innerKind.InlineWithin k := inlineWithin_of_ofInner? (hes e he) hread
    exact hwithin
  · exact inlineWithin_of_leaf? hes h

end NodeKind

/-- What stands in a record is nested no deeper than the record. -/
theorem Yaml.Node.Fits.entries_of_record? {k : Nat} {n : Node} (h : n.Fits k) {names : List String}
    {es : Entries} (hes : n.record? names = some es) : ∀ e ∈ es, e.2.Fits k := by
  unfold Node.record? at hes
  split at hes
  · next entries hcontent =>
    obtain ⟨es', hnamed, hes⟩ := Option.bind_eq_some_iff.1 hes
    split at hes
    · cases hes
      obtain ⟨below, rfl, hentries⟩ := h.entries hcontent
      exact fun e he => (Entries.fits_of_named? hentries hnamed e he).mono (Nat.le_succ below)
    · cases hes
  · cases hes
    simp
  · cases hes

theorem NodeDecl.inlineWithin_of_ofBody {k : Nat} {id : String} {body : Node} (hbody : body.Fits k)
    {n : NodeDecl} (h : NodeDecl.ofBody id body = .ok n) : n.kind.InlineWithin k := by
  unfold NodeDecl.ofBody at h
  split at h
  · cases h
  · split at h
    · next kind options hparts =>
      cases h
      obtain ⟨⟨name, es⟩, hentries, hparts⟩ := Option.bind_eq_some_iff.1 hparts
      obtain ⟨read, hread, hparts⟩ := Option.bind_eq_some_iff.1 hparts
      obtain ⟨options', _, hparts⟩ := Option.bind_eq_some_iff.1 hparts
      cases hparts
      obtain ⟨es', hrecord, hentries⟩ := Option.bind_eq_some_iff.1 hentries
      obtain ⟨name', _, hentries⟩ := Option.bind_eq_some_iff.1 hentries
      split at hentries
      · cases hentries
        exact NodeKind.inlineWithin_of_ofEntries? (hbody.entries_of_record? hrecord) hread
      · cases hentries
    · cases h

namespace Definition

variable {k : Nat} {d : Definition}

theorem inlineWithin_of_readNodes {entries : List (Node × Node)}
    (h : ∀ p ∈ entries, p.2.Fits k) : ∀ n ∈ (readNodes entries).2, n.kind.InlineWithin k := by
  induction entries with
  | nil => exact fun n hn => absurd hn List.not_mem_nil
  | cons p rest ih =>
    obtain ⟨hp, hrest⟩ := List.forall_mem_cons.1 h
    unfold readNodes
    dsimp only
    split
    · exact ih hrest
    · split
      · exact ih hrest
      · split
        · next node hnode =>
          exact List.forall_mem_cons.2 ⟨NodeDecl.inlineWithin_of_ofBody hp hnode, ih hrest⟩
        · exact ih hrest

/-- The inline definitions of a definition are nested less deeply than the node that it is read
from. -/
theorem inlineBelow_ofNode {root : Node} (hroot : root.Fits k) (h : ofNode root = .ok d) :
    d.InlineBelow k := by
  unfold ofNode at h
  split at h
  · next entries =>
    dsimp only at h
    split at h
    · cases h
      obtain ⟨below, rfl, hentries⟩ := hroot.entries rfl
      have hnodes : ∀ n ∈ (readNodeSection entries).2, n.kind.InlineWithin below := by
        unfold readNodeSection
        split
        · next first rest hlookup =>
          obtain ⟨p, hp, hsection⟩ := Node.exists_of_lookup? hlookup
          have hfits := hentries p hp
          rw [hsection] at hfits
          obtain ⟨lower, rfl, hbodies⟩ := hfits.entries rfl
          exact fun n hn => (inlineWithin_of_readNodes hbodies n hn).mono (Nat.le_succ lower)
        · exact fun n hn => absurd hn List.not_mem_nil
        · exact fun n hn => absurd hn List.not_mem_nil
      exact fun n hn spec hspec v hv => Nat.lt_succ_of_le (hnodes n hn spec hspec v hv)
    · cases h
  · cases h

theorem inlineBelow_parse {text : String} (h : parse text = .ok d) : d.InlineBelow maxDepth := by
  unfold parse at h
  split at h
  · next root hroot => exact inlineBelow_ofNode (fits_of_read? hroot) h
  · cases h

theorem inlineBelow_ofValue {v : Value} (h : ofValue v = .ok d) : d.InlineBelow v.depth :=
  inlineBelow_ofNode (Node.fits_ofValue (Nat.le_refl _)) h

end Definition

end WorkflowGraph
