import WorkflowGraph.Compiler
import WorkflowGraph.Proofs.Transition.Table

/-!
# Stages without errors have made something

Several stages of compilation end with nothing and no error. That is harmless because the faults
of a definition are looked for before: a node without faults, whose tools are bound and whose
inner graph is made or refused with an error, is compiled or refused with an error
(`Compiler.nodeOf_complete`).
-/

set_option autoImplicit false

namespace WorkflowGraph

namespace Staged

variable {α β : Type}

/-- Whether a stage has made something unless it has found an error. -/
def Complete (s : Staged α) : Prop := s.errors = [] → s.made.isSome

theorem complete_ok (a : α) : (ok a).Complete := fun _ => rfl

theorem complete_refused {errors : List CompileError} (h : errors ≠ []) :
    (refused errors : Staged α).Complete := fun hnil => absurd hnil h

theorem Complete.map {s : Staged α} (h : s.Complete) (f : α → β) : (s.map f).Complete := by
  intro hnil
  unfold Staged.map
  rw [Option.isSome_map]
  exact h hnil

theorem complete_ofExcept {r : Except (List CompileError) α}
    (h : ∀ errors, r = .error errors → errors ≠ []) : (ofExcept r).Complete := by
  cases r with
  | ok a => exact complete_ok a
  | error errors => exact complete_refused (h errors rfl)

end Staged

theorem eq_ok_of_toOption {ε α : Type} {made : Except ε α} {a : α} (h : made.toOption = some a) :
    made = .ok a := by
  cases made with
  | ok b => exact congrArg _ (Option.some.inj h)
  | error e => cases h

namespace Compiler

open Staged

variable {c : Compiler} {d : Definition}

/-! ## Tools and tasks -/

theorem executorFor_errors {node task : String} {backend : Option Value}
    {errors : List CompileError} (h : c.executorFor node task backend = .error errors) :
    errors ≠ [] := by
  unfold executorFor at h
  split at h
  · cases h
    simp
  · split at h
    · cases h
    · cases h
      simp

theorem error_of_bind {ε α β : Type} {x : Except ε α} {next : α → Except ε β} {e : ε}
    (h : (x >>= next) = .error e) : x = .error e ∨ ∃ a, x = .ok a ∧ next a = .error e := by
  cases x with
  | error e' =>
    cases h
    exact .inl rfl
  | ok a => exact .inr ⟨a, rfl, h⟩

theorem ok_of_bind {ε α β : Type} {x : Except ε α} {next : α → Except ε β} {b : β}
    (h : (x >>= next) = .ok b) : ∃ a, x = .ok a ∧ next a = .ok b := by
  cases x with
  | error e => cases h
  | ok a => exact ⟨a, rfl, h⟩

theorem bindTask_errors {node : NodeDecl} {task : String} {errors : List CompileError}
    (h : c.bindTask d node task = .error errors) : errors ≠ [] := by
  unfold bindTask at h
  rcases error_of_bind h with hprimary | ⟨primary, _, h⟩
  · exact executorFor_errors hprimary
  · split at h
    · rcases error_of_bind h with hfallback | ⟨fallback, _, h⟩
      · exact executorFor_errors hfallback
      · cases h
    · cases h

/-- Where every tool is bound without error, every declared tool is among the bound ones. -/
theorem isSome_get?_bindTools {tools : List (String × ToolDecl)}
    (h : (c.bindTools tools).2 = []) {name : String} (hname : Dict.has tools name = true) :
    (Dict.get? (c.bindTools tools).1 name).isSome := by
  induction tools with
  | nil => cases hname
  | cons p rest ih =>
    obtain ⟨key, decl⟩ := p
    unfold Dict.has at hname
    rw [Dict.get?_cons] at hname
    unfold bindTools at h ⊢
    dsimp only at h ⊢
    cases hbinding : c.tools.get? (decl.binding.getD key) with
    | none =>
      rw [hbinding] at h
      cases h
    | some tool =>
      simp only [hbinding] at h ⊢
      apply Dict.isSome_get?_put
      by_cases hkey : key = name
      · exact .inl hkey
      · rw [if_neg hkey] at hname
        exact .inr (ih h hname)

/-! ## Kinds of nodes -/

/-- A transform without faults is compiled or refused with an error. -/
theorem transformOf_complete {env : Surroundings} {id : String} {options : NodeOptions}
    {spec : TransformSpec}
    (htools : ∀ name, d.tools.has name = true → (Dict.get? env.tools name).isSome)
    (h : d.transformFaults id options spec = []) :
    (c.transformOf env ⟨id, .transform spec, options⟩ spec).Complete := by
  unfold Definition.transformFaults at h
  rw [List.append_eq_nil_iff] at h
  obtain ⟨htarget, houtput⟩ := h
  have hsome : options.output.isSome := by
    cases ho : options.output with
    | some output => rfl
    | none =>
      rw [ho] at houtput
      cases houtput
  obtain ⟨output, ho⟩ := Option.isSome_iff_exists.1 hsome
  unfold transformOf
  dsimp only
  cases htask : spec.task with
  | some task =>
    dsimp only
    cases hbind : c.bindTask env.definition ⟨id, .transform spec, options⟩ task with
    | ok binding =>
      intro _
      dsimp only
      rw [ho]
      rfl
    | error errors => exact complete_refused (bindTask_errors hbind)
  | none =>
    cases htool : spec.tool with
    | none =>
      rw [htask, htool] at htarget
      cases htarget
    | some name =>
      rw [htask, htool] at htarget
      have hhas : d.tools.has name = true := by
        dsimp only [Definition.toolFaults] at htarget
        by_contra hnot
        rw [if_neg hnot] at htarget
        cases htarget
      obtain ⟨tool, hget⟩ := Option.isSome_iff_exists.1 (htools name hhas)
      dsimp only
      rw [hget]
      intro _
      dsimp only
      rw [ho]
      rfl

theorem routerOf_complete {env : Surroundings} {id : String} {options : NodeOptions}
    {spec : RouterSpec} {inMap : Bool} (h : d.routerFaults id inMap spec = []) :
    (c.routerOf env ⟨id, .router spec, options⟩ spec).Complete := by
  simp only [Definition.routerFaults, List.append_eq_nil_iff] at h
  obtain ⟨⟨⟨⟨hsource, _⟩, _⟩, _⟩, _⟩ := h
  unfold routerOf
  dsimp only
  cases htask : spec.task with
  | some task => exact (complete_ofExcept fun _ he => bindTask_errors he).map _
  | none =>
    cases hpath : spec.source with
    | some path => exact complete_ok _
    | none =>
      rw [htask, hpath] at hsource
      cases hsource

theorem agentOf_complete (env : Surroundings) (node : NodeDecl) (spec : AgentSpec) :
    (c.agentOf env node spec).Complete :=
  (complete_ofExcept fun _ he => bindTask_errors he).map _

theorem interruptOf_complete {env : Surroundings} {id : String} {options : NodeOptions}
    {spec : InterruptSpec} {skip inMap : Bool}
    (h : Definition.interruptFaults id inMap spec = []) :
    (c.interruptOf env ⟨id, .interrupt spec, options⟩ spec skip).Complete := by
  simp only [Definition.interruptFaults, List.append_eq_nil_iff] at h
  unfold interruptOf
  dsimp only
  cases hmessage : spec.message with
  | some text => exact fun _ => rfl
  | none =>
    cases htask : spec.task with
    | none =>
      rw [hmessage, htask] at h
      cases h.1
    | some task =>
      dsimp only
      cases hbind : c.bindTask env.definition ⟨id, .interrupt spec, options⟩ task with
      | ok binding => exact fun _ => rfl
      | error errors => exact complete_refused (bindTask_errors hbind)

/-! ## Nodes -/

/-- What is asked of the graphs inside subgraphs: they are made or refused with an error where
the subgraph has no faults. -/
def InnerComplete (inner : Inner) : Prop :=
  ∀ env node spec, Definition.subgraphFaults node.id spec = [] → (inner env node spec).Complete

/-- **A node without faults is compiled or refused with an error.** By induction on its kind,
through the nodes inside maps. -/
theorem nodeOf_complete {inner : Inner} {env : Surroundings} (hinner : InnerComplete inner)
    (htools : ∀ name, d.tools.has name = true → (Dict.get? env.tools name).isSome)
    (kind : NodeKind) {id : String} {options : NodeOptions} {skip inMap : Bool}
    (h : d.nodeFaults id options inMap kind = []) :
    (c.nodeOf inner env id options skip kind).Complete := by
  induction kind generalizing id options skip inMap with
  | transform spec => exact (transformOf_complete htools h).map _
  | router spec => exact (routerOf_complete h).map _
  | agent spec => exact (agentOf_complete _ _ _).map _
  | map spec innerOptions kind ih =>
    exact (ih (List.append_eq_nil_iff.1 h).2).map _
  | interrupt spec => exact (interruptOf_complete h).map _
  | subgraph spec => exact (hinner env ⟨id, .subgraph spec, options⟩ spec h).map _
  | passthrough spec => exact complete_ok _

theorem nodesOf_ids {inner : Inner} {env : Surroundings} (hinner : InnerComplete inner)
    (htools : ∀ name, d.tools.has name = true → (Dict.get? env.tools name).isSome)
    {nodes : List NodeDecl}
    (hfaults : ∀ n ∈ nodes, d.nodeFaults n.id n.options false n.kind = [])
    (h : (c.nodesOf inner env nodes).2 = []) :
    (c.nodesOf inner env nodes).1.map Prod.fst = nodes.map NodeDecl.id := by
  induction nodes with
  | nil => rfl
  | cons node rest ih =>
    unfold nodesOf at h ⊢
    dsimp only at h ⊢
    rw [List.append_eq_nil_iff] at h
    have hmade := nodeOf_complete hinner htools node.kind (hfaults node List.mem_cons_self) h.1
    obtain ⟨made, hmade⟩ := Option.isSome_iff_exists.1 hmade
    have hrest := ih (fun n hn => hfaults n (List.mem_cons_of_mem _ hn)) h.2
    rw [hmade, List.map_append, hrest]
    rfl

end Compiler

end WorkflowGraph
