import WorkflowGraph.Proofs.Compiler.Reports
import WorkflowGraph.Proofs.Compiler.Uninterrupted
import WorkflowGraph.Proofs.Definition.Depth

/-!
# Definitions inside definitions

From a definition compilation goes on to those inside its subgraphs (`Compiler.Leads`). Each step
either enters one more of the sources that can be loaded, or goes to an inline definition, which is
nested less deeply than the one around it; so there are only finitely many steps, whatever the
sources refer to, and the depth that is given to them is never reached
(`Compiler.assemble_eq_of_bounded`). A definition is refused because it encloses itself exactly where
its key is on the stack (`Compiler.reports_assemble_iff`).
-/

set_option autoImplicit false

namespace WorkflowGraph

/-- Whether errors report, inside the subgraphs with some ids, that a definition encloses itself, and
with which chain. -/
inductive CompileError.Reports : List String → List String → List CompileError → Prop where
  | here {chain : List String} {errors : List CompileError}
    (h : .definition (.circularSubgraph chain) ∈ errors) : Reports [] chain errors
  | inside {id : String} {ids chain : List String} {errors inner : List CompileError}
    (h : .subgraph id inner ∈ errors) (hinner : Reports ids chain inner) :
    Reports (id :: ids) chain errors

namespace SourceStack

variable {stack entered : SourceStack} {key : String}

/-- How many of some keys are not on a stack. -/
def fresh (names : List String) (stack : SourceStack) : Nat :=
  (names.filter fun name => !stack.keys.contains name).length

theorem filter_enter (h : stack.enter key = .ok entered) (names : List String) :
    (names.filter fun name => !entered.keys.contains name) =
      (names.filter fun name => !stack.keys.contains name).filter fun name => name != key := by
  rw [List.filter_filter]
  congr 1
  funext name
  rw [(keys_of_enter h).2, List.contains_append, Bool.not_or, Bool.and_comm, List.contains_cons,
    List.contains_nil, Bool.or_false]
  rfl

theorem fresh_enter_le (h : stack.enter key = .ok entered) (names : List String) :
    entered.fresh names ≤ stack.fresh names := by
  unfold fresh
  rw [filter_enter h]
  exact List.length_filter_le _ _

/-- One of the keys that is entered is on the stack from then on. -/
theorem fresh_enter_lt (h : stack.enter key = .ok entered) {names : List String}
    (hkey : key ∈ names) : entered.fresh names < stack.fresh names := by
  unfold fresh
  rw [filter_enter h, List.length_filter_lt_length_iff_exists]
  refine ⟨key, List.mem_filter.2 ⟨hkey, ?_⟩, by simp⟩
  simpa using (keys_of_enter h).1

end SourceStack

namespace Compiler

variable {c : Compiler} {store : Option Store} {ids chain : List String} {depth : Nat}

/-- A definition and the keys of those that it is compiled inside, with its own. -/
structure Site where
  stack : SourceStack
  definition : Definition

/-- Whether compilation goes from a valid definition to the one inside a subgraph with an id. -/
inductive Leads (c : Compiler) (id : String) : Site → Site → Prop where
  | intro {stack entered : SourceStack} {d child : Definition} {n node : NodeDecl}
    {spec : SubgraphSpec} {key : String} (hvalid : d.faults = []) (hn : n ∈ d.nodes)
    (hsubgraph : NodeDecl.subgraph? n.id n.options n.kind = some (node, spec)) (hid : node.id = id)
    (hsource : c.subgraphSource (c.surroundings stack d) node spec = .ok (key, .ok child))
    (hentered : stack.enter key = .ok entered) : Leads c id ⟨stack, d⟩ ⟨entered, child⟩

/-- Whether compilation goes from a definition to another one through subgraphs with some ids. -/
inductive Way (c : Compiler) : Site → List String → Site → Prop where
  | here (s : Site) : Way c s [] s
  | inside {id : String} {ids : List String} {s t u : Site} (h : c.Leads id s t)
    (hrest : Way c t ids u) : Way c s (id :: ids) u

/-- Whether a valid definition has a subgraph whose key is on the stack already, at the end of which
the chain has it once more. -/
def Refuses (c : Compiler) (s : Site) (chain : List String) : Prop :=
  s.definition.faults = [] ∧ ∃ n ∈ s.definition.nodes, ∃ node spec key parsed,
    NodeDecl.subgraph? n.id n.options n.kind = some (node, spec) ∧
      c.subgraphSource (c.surroundings s.stack s.definition) node spec = .ok (key, parsed) ∧
      key ∈ s.stack.keys ∧ chain = s.stack.keys ++ [key]

theorem nested?_of_subgraph? (kind : NodeKind) {id : String} {options : NodeOptions}
    {node : NodeDecl} {spec : SubgraphSpec}
    (h : NodeDecl.subgraph? id options kind = some (node, spec)) : kind.nested? = some spec := by
  induction kind generalizing id options with
  | map _ _ kind ih => exact ih h
  | subgraph spec =>
    cases h
    rfl
  | transform spec => cases h
  | router spec => cases h
  | agent spec => cases h
  | interrupt spec => cases h
  | passthrough spec => cases h

/-! ## Finitely many steps -/

/-- Whether a number bounds how far compilation goes on from a definition: it counts the sources that
have not been entered, and between two of them as many inline definitions as can be nested. -/
def Bounded (names : List String) (bound : Nat) (s : Site) : Prop :=
  ∃ k, s.definition.InlineBelow k ∧ k ≤ Yaml.maxDepth ∧
    s.stack.fresh names * (Yaml.maxDepth + 1) + k ≤ bound

/-- What a subgraph refers to is one of the sources, or it is an inline definition. -/
theorem key_or_inline_of_subgraphSource {sources : Dict String} (hc : c.loader = .texts sources)
    {env : Surroundings} {node : NodeDecl} {spec : SubgraphSpec} {key : String} {child : Definition}
    (h : c.subgraphSource env node spec = .ok (key, .ok child)) :
    (key ∈ sources.names ∧ child.InlineBelow Yaml.maxDepth) ∨
      ∃ v, spec.definition = some v ∧ child.InlineBelow v.depth := by
  unfold subgraphSource at h
  cases hgraph : spec.graph with
  | some reference =>
    rw [hgraph, hc] at h
    dsimp only [SourceLoader.load] at h
    cases htext : Dict.get? sources reference with
    | none =>
      rw [htext] at h
      cases h
    | some text =>
      rw [htext] at h
      simp only [Except.ok.injEq, Prod.mk.injEq] at h
      obtain ⟨rfl, hparsed⟩ := h
      exact .inl ⟨List.mem_map_of_mem (Dict.mem_of_get? htext), Definition.inlineBelow_parse hparsed⟩
  | none =>
    cases hinline : spec.definition with
    | none =>
      rw [hgraph, hinline] at h
      cases h
    | some v =>
      rw [hgraph, hinline] at h
      simp only [Except.ok.injEq, Prod.mk.injEq] at h
      exact .inr ⟨v, rfl, Definition.inlineBelow_ofValue h.2⟩

/-- **Each step into a subgraph takes something from the bound.** -/
theorem Bounded.leads {sources : Dict String} (hc : c.loader = .texts sources) {bound : Nat}
    {s t : Site} (hs : Bounded sources.names bound s) {id : String} (h : c.Leads id s t) :
    ∃ below < bound, Bounded sources.names below t := by
  obtain ⟨k, hinline, hk, hbound⟩ := hs
  cases h with
  | @intro stack entered d child n node spec key _ hn hsubgraph _ hsource hentered =>
    dsimp only at hinline hbound
    have hle := SourceStack.fresh_enter_le hentered sources.names
    rcases key_or_inline_of_subgraphSource hc hsource with ⟨hkey, hchild⟩ | ⟨v, hv, hchild⟩
    · have hlt := SourceStack.fresh_enter_lt hentered hkey
      refine ⟨entered.fresh sources.names * (Yaml.maxDepth + 1) + Yaml.maxDepth, ?_,
        Yaml.maxDepth, hchild, Nat.le_refl _, Nat.le_refl _⟩
      have hmul := Nat.mul_le_mul_right (Yaml.maxDepth + 1) hlt
      rw [Nat.succ_mul] at hmul
      omega
    · have hdepth := hinline n hn spec (nested?_of_subgraph? n.kind hsubgraph) v hv
      refine ⟨entered.fresh sources.names * (Yaml.maxDepth + 1) + v.depth, ?_, v.depth, hchild,
        by omega, Nat.le_refl _⟩
      have hmul := Nat.mul_le_mul_right (Yaml.maxDepth + 1) hle
      omega

/-- A definition is compiled to the same where those inside its subgraphs are. -/
theorem assemble_congr {other : Nat} {s : Site}
    (h : ∀ id t, c.Leads id s t →
      c.assemble store depth t.stack t.definition = c.assemble store other t.stack t.definition) :
    c.assemble store (depth + 1) s.stack s.definition =
      c.assemble store (other + 1) s.stack s.definition := by
  obtain ⟨stack, d⟩ := s
  cases hd : d.faults with
  | cons first rest =>
    unfold assemble
    dsimp only
    rw [hd]
  | nil =>
    rw [assemble_succ c store depth stack hd, assemble_succ c store other stack hd]
    unfold link
    congr 1
    refine nodesOf_congr fun n hn node spec hsubgraph => ?_
    cases hsource : c.subgraphSource (c.surroundings stack d) node spec with
    | error errors =>
      unfold innerAt
      rw [hsource]
    | ok source =>
      obtain ⟨key, parsed⟩ := source
      cases hentered : (c.surroundings stack d).stack.enter key with
      | error e =>
        unfold innerAt
        rw [hsource]
        dsimp only
        rw [hentered]
      | ok entered =>
        rw [innerAt_of_entered hsource hentered, innerAt_of_entered hsource hentered]
        cases parsed with
        | error es => rfl
        | ok child =>
          have hchild : c.assemble store depth entered child =
              c.assemble store other entered child :=
            h node.id ⟨entered, child⟩ (.intro hd hn hsubgraph rfl hsource hentered)
          unfold inside
          dsimp only
          rw [hchild]

/-- **The depth that is given to the definitions inside one another is never reached.** By induction
on the bound. -/
theorem assemble_eq_of_bounded {sources : Dict String} (hc : c.loader = .texts sources)
    {bound : Nat} {s : Site} (hs : Bounded sources.names bound s) {other : Nat}
    (hdepth : bound < depth) (hother : bound < other) :
    c.assemble store depth s.stack s.definition = c.assemble store other s.stack s.definition := by
  induction bound using Nat.strong_induction_on generalizing s depth other with
  | _ bound ih =>
    obtain ⟨depth, rfl⟩ := Nat.exists_eq_add_of_lt (Nat.zero_lt_of_lt hdepth)
    obtain ⟨other, rfl⟩ := Nat.exists_eq_add_of_lt (Nat.zero_lt_of_lt hother)
    rw [Nat.zero_add] at hdepth hother ⊢
    rw [Nat.zero_add]
    refine assemble_congr fun id t ht => ?_
    obtain ⟨below, hbelow, hbounded⟩ := hs.leads hc ht
    exact ih below hbelow hbounded (by omega) (by omega)

/-- From a definition only finitely many steps lead on in a row. -/
theorem acc_of_bounded {sources : Dict String} (hc : c.loader = .texts sources) {bound : Nat}
    {s : Site} (hs : Bounded sources.names bound s) : Acc (fun t s => ∃ id, c.Leads id s t) s := by
  induction bound using Nat.strong_induction_on generalizing s with
  | _ bound ih =>
    refine Acc.intro s fun t ht => ?_
    obtain ⟨id, ht⟩ := ht
    obtain ⟨below, hbelow, hbounded⟩ := hs.leads hc ht
    exact ih below hbelow hbounded

theorem Bounded.way {sources : Dict String} (hc : c.loader = .texts sources) {bound : Nat}
    {s t : Site} (hs : Bounded sources.names bound s) (h : c.Way s ids t) :
    ∃ below ≤ bound, Bounded sources.names below t := by
  induction h generalizing bound with
  | here s => exact ⟨bound, Nat.le_refl _, hs⟩
  | inside hleads _ ih =>
    obtain ⟨middle, hmiddle, hbounded⟩ := hs.leads hc hleads
    obtain ⟨below, hbelow, hbounded⟩ := ih hbounded
    exact ⟨below, by omega, hbounded⟩

/-! ## What is refused -/

theorem isPlain_of_subgraphSource {env : Surroundings} {node : NodeDecl} {spec : SubgraphSpec}
    {errors : List CompileError} (h : c.subgraphSource env node spec = .error errors) :
    ∀ e ∈ errors, e.IsPlain := by
  unfold subgraphSource at h
  split at h
  · split at h
    · cases h
    · cases h
      simp [CompileError.IsPlain, DefinitionError.IsPlain, DefinitionError.IsOwn]
  · cases h
  · cases h
    exact fun e he => absurd he List.not_mem_nil

/-- The errors of a definition that is not read are plain. -/
theorem isPlain_of_parsed {env : Surroundings} {node : NodeDecl} {spec : SubgraphSpec} {key : String}
    {errors : List DefinitionError}
    (h : c.subgraphSource env node spec = .ok (key, .error errors)) : ∀ e ∈ errors, e.IsPlain := by
  unfold subgraphSource at h
  split at h
  · split at h
    · simp only [Except.ok.injEq, Prod.mk.injEq] at h
      exact Definition.isPlain_of_parse h.2
    · cases h
  · simp only [Except.ok.injEq, Prod.mk.injEq] at h
    exact Definition.isPlain_of_ofNode h.2
  · cases h

theorem errors_ofExcept_mapError {α : Type} {made : Except (List CompileError) α}
    {e : CompileError} {id : String} :
    e ∈ (Staged.ofExcept (made.mapError fun es => [CompileError.subgraph id es])).errors ↔
      ∃ es, made = .error es ∧ e = .subgraph id es := by
  cases made with
  | ok a =>
    refine ⟨fun he => absurd he List.not_mem_nil, ?_⟩
    rintro ⟨es, ⟨⟩, _⟩
  | error es =>
    refine ⟨fun he => ⟨es, rfl, List.mem_singleton.1 he⟩, ?_⟩
    rintro ⟨_, ⟨⟩, rfl⟩
    exact List.mem_cons_self

/-- A subgraph reports that its definition encloses itself exactly where its key is on the stack. -/
theorem circular_mem_innerAt_iff {env : Surroundings} {node : NodeDecl} {spec : SubgraphSpec} :
    .definition (.circularSubgraph chain) ∈ (c.innerAt store depth env node spec).errors ↔
      ∃ key parsed, c.subgraphSource env node spec = .ok (key, parsed) ∧
        key ∈ env.stack.keys ∧ chain = env.stack.keys ++ [key] := by
  cases hsource : c.subgraphSource env node spec with
  | error errors =>
    have hplain := isPlain_of_subgraphSource hsource
    unfold innerAt
    rw [hsource]
    refine ⟨fun he => absurd rfl ((hplain _ he).1 chain), ?_⟩
    rintro ⟨key, parsed, ⟨⟩, _⟩
  | ok source =>
    obtain ⟨key, parsed⟩ := source
    cases hentered : env.stack.enter key with
    | error e =>
      unfold innerAt
      rw [hsource]
      dsimp only
      rw [hentered]
      obtain ⟨hkey, rfl⟩ := SourceStack.enter_eq_error_iff.1 hentered
      refine ⟨fun he => ⟨key, parsed, rfl, hkey, ?_⟩, ?_⟩
      · simpa using List.mem_singleton.1 he
      · rintro ⟨key', parsed', hsame, _, rfl⟩
        cases hsame
        exact List.mem_cons_self
    | ok entered =>
      rw [innerAt_of_entered hsource hentered, errors_ofExcept_mapError]
      refine ⟨?_, ?_⟩
      · rintro ⟨es, _, ⟨⟩⟩
      · rintro ⟨key', parsed', hsame, hkey, _⟩
        cases hsame
        exact absurd hkey (SourceStack.keys_of_enter hentered).1

/-- A subgraph reports on what is inside it exactly where that has been entered and has errors. -/
theorem subgraph_mem_innerAt_iff {env : Surroundings} {node : NodeDecl} {spec : SubgraphSpec}
    {id : String} {errors : List CompileError} :
    .subgraph id errors ∈ (c.innerAt store depth env node spec).errors ↔
      node.id = id ∧ ∃ key parsed entered, c.subgraphSource env node spec = .ok (key, parsed) ∧
        env.stack.enter key = .ok entered ∧
          c.inside store depth entered parsed = .error errors := by
  cases hsource : c.subgraphSource env node spec with
  | error errors =>
    have hplain := isPlain_of_subgraphSource hsource
    unfold innerAt
    rw [hsource]
    refine ⟨fun he => (hplain _ he).elim, ?_⟩
    rintro ⟨_, key, parsed, entered, ⟨⟩, _⟩
  | ok source =>
    obtain ⟨key, parsed⟩ := source
    cases hentered : env.stack.enter key with
    | error e =>
      unfold innerAt
      rw [hsource]
      dsimp only
      rw [hentered]
      refine ⟨fun he => ?_, ?_⟩
      · cases List.mem_singleton.1 he
      · rintro ⟨_, key', parsed', entered, hsame, hentered', _⟩
        cases hsame
        rw [hentered] at hentered'
        cases hentered'
    | ok entered =>
      rw [innerAt_of_entered hsource hentered, errors_ofExcept_mapError]
      refine ⟨?_, ?_⟩
      · rintro ⟨es, hinside, ⟨⟩⟩
        exact ⟨rfl, key, parsed, entered, rfl, hentered, hinside⟩
      · rintro ⟨rfl, key', parsed', entered', hsame, hentered', hinside⟩
        cases hsame
        rw [hentered] at hentered'
        cases hentered'
        exact ⟨errors, hinside, rfl⟩

theorem not_isOwn_circularSubgraph (chain : List String) :
    ¬ CompileError.IsOwn (.definition (.circularSubgraph chain)) :=
  fun h => h chain rfl

theorem not_isOwn_subgraph (id : String) (errors : List CompileError) :
    ¬ CompileError.IsOwn (.subgraph id errors) :=
  fun h => h

/-- Errors that are all a definition's own report nothing of definitions that enclose themselves. -/
theorem not_reports_of_own {errors : List CompileError} (h : ∀ e ∈ errors, e.IsOwn) :
    ¬ CompileError.Reports ids chain errors := by
  rintro (⟨hmem⟩ | ⟨hmem, _⟩)
  · exact not_isOwn_circularSubgraph chain (h _ hmem)
  · exact not_isOwn_subgraph _ _ (h _ hmem)

/-- An error that is not plain is reported by a definition only where this is valid, and then by the
binding of its tools or by a subgraph in one of its nodes. -/
theorem mem_errors_assemble_or_iff {e : CompileError} (hplain : ¬ e.IsPlain) {s : Site} :
    e ∈ (Staged.ofExcept (c.assemble store (depth + 1) s.stack s.definition)).errors ↔
      s.definition.faults = [] ∧ (e ∈ (c.bindTools s.definition.tools).2 ∨
        ∃ n ∈ s.definition.nodes, ∃ node spec,
          NodeDecl.subgraph? n.id n.options n.kind = some (node, spec) ∧
            e ∈ (c.innerAt store depth (c.surroundings s.stack s.definition) node spec).errors) := by
  obtain ⟨stack, d⟩ := s
  dsimp only
  cases hd : d.faults with
  | nil =>
    rw [assemble_succ c store depth stack hd, mem_errors_link_or_iff hplain]
    exact (and_iff_right rfl).symm
  | cons first rest =>
    refine ⟨fun he => absurd ?_ hplain, fun h => absurd h.1 (List.cons_ne_nil _ _)⟩
    unfold assemble at he
    rw [hd] at he
    obtain ⟨fault, hfault, rfl⟩ := List.mem_map.1 he
    rw [← hd] at hfault
    exact Definition.isPlain_of_mem_faults hfault

/-- An error that is not its own is reported by a definition only where this is valid, and then by a
subgraph in one of its nodes. -/
theorem mem_errors_assemble_iff {e : CompileError} (hown : ¬ e.IsOwn) {s : Site} :
    e ∈ (Staged.ofExcept (c.assemble store (depth + 1) s.stack s.definition)).errors ↔
      s.definition.faults = [] ∧ ∃ n ∈ s.definition.nodes, ∃ node spec,
        NodeDecl.subgraph? n.id n.options n.kind = some (node, spec) ∧
          e ∈ (c.innerAt store depth (c.surroundings s.stack s.definition) node spec).errors := by
  rw [mem_errors_assemble_or_iff (mt CompileError.IsPlain.isOwn hown),
    or_iff_right (mt isOwn_of_mem_bindTools hown)]

/-- **A definition reports that it encloses itself exactly where a key is on the stack already, and
inside its subgraphs exactly what these report.** By induction on the ids of the subgraphs. -/
theorem reports_assemble_iff {sources : Dict String} (hc : c.loader = .texts sources)
    {bound : Nat} {s : Site} (hs : Bounded sources.names bound s) (hdepth : bound < depth) :
    CompileError.Reports ids chain
        (Staged.ofExcept (c.assemble store depth s.stack s.definition)).errors ↔
      ∃ t, c.Way s ids t ∧ c.Refuses t chain := by
  induction ids generalizing bound s depth with
  | nil =>
    obtain ⟨depth, rfl⟩ := Nat.exists_eq_add_of_lt (Nat.zero_lt_of_lt hdepth)
    rw [Nat.zero_add]
    have hcircular : .definition (.circularSubgraph chain) ∈ (Staged.ofExcept
        (c.assemble store (depth + 1) s.stack s.definition)).errors ↔ c.Refuses s chain := by
      rw [mem_errors_assemble_iff (not_isOwn_circularSubgraph chain)]
      unfold Refuses
      refine and_congr_right fun _ => exists_congr fun n => and_congr_right fun _ => ?_
      refine exists_congr fun node => exists_congr fun spec => ?_
      rw [circular_mem_innerAt_iff]
      constructor
      · rintro ⟨hsubgraph, key, parsed, h⟩
        exact ⟨key, parsed, hsubgraph, h⟩
      · rintro ⟨key, parsed, hsubgraph, h⟩
        exact ⟨hsubgraph, key, parsed, h⟩
    constructor
    · rintro ⟨hmem⟩
      exact ⟨s, .here s, hcircular.1 hmem⟩
    · rintro ⟨t, ⟨_⟩, hrefuses⟩
      exact .here (hcircular.2 hrefuses)
  | cons id ids ih =>
    obtain ⟨depth, rfl⟩ := Nat.exists_eq_add_of_lt (Nat.zero_lt_of_lt hdepth)
    rw [Nat.zero_add] at hdepth ⊢
    constructor
    · rintro (_ | ⟨hmem, hinner⟩)
      obtain ⟨hvalid, n, hn, node, spec, hsubgraph, hmem⟩ :=
        (mem_errors_assemble_iff (not_isOwn_subgraph _ _)).1 hmem
      obtain ⟨hid, key, parsed, entered, hsource, hentered, hinside⟩ :=
        subgraph_mem_innerAt_iff.1 hmem
      cases parsed with
      | error es =>
        cases hinside
        refine absurd hinner (not_reports_of_own fun e he => ?_)
        obtain ⟨fault, hfault, rfl⟩ := List.mem_map.1 he
        exact (isPlain_of_parsed hsource fault hfault).1
      | ok child =>
        have hleads : c.Leads id s ⟨entered, child⟩ :=
          .intro hvalid hn hsubgraph hid hsource hentered
        obtain ⟨below, hbelow, hbounded⟩ := hs.leads hc hleads
        have hchild : c.assemble store depth entered child = .error _ := hinside
        have hiff := ih hbounded (by omega : below < depth)
        dsimp only at hiff
        rw [hchild] at hiff
        obtain ⟨t, hway, hrefuses⟩ := hiff.1 hinner
        exact ⟨t, .inside hleads hway, hrefuses⟩
    · rintro ⟨t, hway, hrefuses⟩
      cases hway with
      | @inside _ _ _ middle _ hleads hway =>
        obtain ⟨below, hbelow, hbounded⟩ := hs.leads hc hleads
        have hreports := (ih hbounded (by omega : below < depth)).2 ⟨t, hway, hrefuses⟩
        cases hleads with
        | @intro stack entered d child n node spec key hvalid hn hsubgraph hid hsource hentered =>
          dsimp only at hreports
          cases hchild : c.assemble store depth entered child with
          | ok g =>
            rw [hchild] at hreports
            exact absurd hreports (not_reports_of_own fun e he => absurd he List.not_mem_nil)
          | error errors =>
            rw [hchild] at hreports
            refine .inside ((mem_errors_assemble_iff (not_isOwn_subgraph _ _)).2
              ⟨hvalid, n, hn, node, spec, hsubgraph, ?_⟩) hreports
            exact subgraph_mem_innerAt_iff.2
              ⟨hid, key, .ok child, entered, hsource, hentered, hchild⟩

end Compiler

end WorkflowGraph
