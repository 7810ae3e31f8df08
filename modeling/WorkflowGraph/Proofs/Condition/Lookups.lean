import WorkflowGraph.Condition.Eval
import WorkflowGraph.Proofs.Condition.Cursor
import WorkflowGraph.Proofs.Condition.Parsing
import WorkflowGraph.Proofs.Condition.Words
import WorkflowGraph.Proofs.Text

/-!
# What a condition looks up

A condition reads a state only where its paths lead (`Expr.eval_congr`). These are the paths of the
text, in its order and without the start `state` (`Expr.lookups_eq_of_ofTokens`), and their segments
hold no dots (`Expr.plain_of_parse`). The list of paths that a condition shows joins the segments
again; when such a path is read as a path of its own, a start `state` is left out for a second time
(`Path.segments_intercalate`).

The paths that a condition reports are those of its text (`Condition.reads_reported_paths`). A state
counts for the condition only through the values that these paths lead to: states in which each of
them leads to the same value, or nowhere in both, are not told apart.
-/

set_option autoImplicit false

namespace WorkflowGraph

/-! ## Evaluation -/

namespace Expr

/-- The segments of the paths of a condition, from left to right. -/
def lookups : Expr → List (List String)
  | .literal _ => []
  | .path segments => [segments]
  | .compare _ lhs rhs => lhs.lookups ++ rhs.lookups
  | .and lhs rhs => lhs.lookups ++ rhs.lookups
  | .or lhs rhs => lhs.lookups ++ rhs.lookups
  | .not inner => inner.lookups

theorem paths_eq (e : Expr) : e.paths = e.lookups.map (String.intercalate ".") := by
  induction e with
  | literal l => rfl
  | path segments => rfl
  | compare op lhs rhs ihlhs ihrhs => rw [paths, lookups, List.map_append, ihlhs, ihrhs]
  | and lhs rhs ihlhs ihrhs => rw [paths, lookups, List.map_append, ihlhs, ihrhs]
  | or lhs rhs ihlhs ihrhs => rw [paths, lookups, List.map_append, ihlhs, ihrhs]
  | not inner ih => rw [paths, lookups, ih]

/-- **A condition depends on a state only through its paths.** -/
theorem eval_congr {e : Expr} {fields fields' : Fields}
    (h : ∀ path ∈ e.lookups, fields.follow? path = fields'.follow? path) :
    e.eval fields = e.eval fields' := by
  induction e with
  | literal l => rfl
  | path segments => exact h segments List.mem_cons_self
  | compare op lhs rhs ihlhs ihrhs =>
    obtain ⟨hlhs, hrhs⟩ := List.forall_mem_append.1 h
    rw [eval, eval, ihlhs hlhs, ihrhs hrhs]
  | and lhs rhs ihlhs ihrhs =>
    obtain ⟨hlhs, hrhs⟩ := List.forall_mem_append.1 h
    rw [eval, eval, ihlhs hlhs, ihrhs hrhs]
  | or lhs rhs ihlhs ihrhs =>
    obtain ⟨hlhs, hrhs⟩ := List.forall_mem_append.1 h
    rw [eval, eval, ihlhs hlhs, ihrhs hrhs]
  | not inner ih => rw [eval, eval, ih h]

end Expr

/-! ## Paths of the text -/

theorem Plain.withoutState {segments : List String} (h : Plain segments) :
    Plain (Expr.withoutState segments) := by
  unfold Expr.withoutState
  split
  · exact ⟨by simp, fun s hs => h.2 s (List.mem_cons_of_mem _ hs)⟩
  · exact h

namespace Token

theorem scanFrom_plain {fuel position : Nat} {cs : List Char} {ts : List Token}
    (h : scanFrom fuel position cs = .ok ts) :
    ∀ t ∈ ts, ∀ segments, t.lexeme = .path segments → Plain segments := by
  fun_induction scanFrom fuel position cs generalizing ts with
  | case1 | case2 =>
    cases h
    simp
  | case3 _ _ _ _ _ ih => exact ih h
  | case4 | case5 => cases h
  | case6 =>
    rename_i lexeme _ hlexeme _ tokens htokens ih
    cases h
    refine List.forall_mem_cons.2 ⟨?_, ih htokens⟩
    rintro segments rfl
    exact (readLexeme_path hlexeme).1.plain

end Token

/-- The segments of the path that a lexeme is, if it is one. -/
def Lexeme.path? : Lexeme → Option (List String)
  | .path segments => some segments
  | _ => none

theorem Lexeme.path?_eq_some_iff {lexeme : Lexeme} {segments : List String} :
    lexeme.path? = some segments ↔ lexeme = .path segments := by
  cases lexeme <;> simp [path?]

namespace Expr

/-- The paths of a tree are those of the lexemes that it is derived from, in their order and without
the start `state`. By induction on the derivation. -/
theorem Derives.lookups_eq {p : Phrase} {n : Nat} {w : List Lexeme} {e : Expr}
    (h : Derives p n w e) : e.lookups = (w.filterMap Lexeme.path?).map withoutState := by
  induction h with
  | disjunct _ ih | conjunct _ ih | plain _ ih | single _ ih => exact ih
  | or _ _ ihlhs ihrhs | and _ _ ihlhs ihrhs | compare _ _ ihlhs ihrhs =>
    rw [lookups, ihlhs, ihrhs, List.filterMap_append, List.map_append]
    rfl
  | not _ ih => exact ih
  | literal l => cases l <;> rfl
  | @path n segments h =>
    show [segments] = [withoutState segments]
    rw [withoutState_of_ne h]
  | statePath => rfl
  | group _ ih =>
    rw [ih, List.cons_append, List.filterMap_cons_none rfl, List.filterMap_append]
    exact (congrArg _ (List.append_nil _)).symm

/-- The paths of a condition are those of its tokens. -/
theorem lookups_eq_of_ofTokens {ending : Nat} {ts : List Token} {e : Expr}
    (h : ofTokens ending ts = .ok e) :
    e.lookups = (ts.filterMap fun t => t.lexeme.path?).map withoutState := by
  obtain ⟨whole, rfl, hwhole⟩ := (sound _).or (ofTokens_eq_ok_iff.1 h).2
  rw [List.append_nil, hwhole.lookups_eq, List.filterMap_map]
  rfl

/-- **What a condition looks up.** Each path stands in the text, and its start `state` is left
out. -/
theorem plain_of_parse {source : String} {e : Expr} (h : parse source = .ok e) :
    ∀ path ∈ e.lookups, Plain path := by
  unfold parse at h
  split at h
  · cases h
  · next ts hscan =>
    intro path hpath
    rw [lookups_eq_of_ofTokens h] at hpath
    obtain ⟨segments, hsegments, rfl⟩ := List.mem_map.1 hpath
    obtain ⟨t, ht, hlexeme⟩ := List.mem_filterMap.1 hsegments
    have hplain := Token.scanFrom_plain hscan t ht segments (Lexeme.path?_eq_some_iff.1 hlexeme)
    exact hplain.withoutState

end Expr

/-! ## Paths that are shown -/

namespace Path

/-- **A path that is shown is read without its start `state`.** -/
theorem segments_intercalate {segments : List String} (h : Plain segments) :
    Path.segments (String.intercalate "." segments) = Expr.withoutState segments := by
  have hsplit : Text.split '.' (String.intercalate "." segments) = segments :=
    Text.split_intercalate h.1 h.2
  have hstate : '.' ∉ "state".toList := by decide
  unfold Path.segments bare
  cases hafter : Text.after? statePrefix (String.intercalate "." segments) with
  | none =>
    rw [Option.getD_none, hsplit, Expr.withoutState_of_ne]
    rintro second rest rfl
    have hstart : String.intercalate "." ("state" :: second :: rest) =
        statePrefix ++ String.intercalate "." (second :: rest) :=
      String.intercalate_cons_of_ne_nil (List.cons_ne_nil _ _)
    rw [Text.after?_eq_some_iff.2 hstart] at hafter
    cases hafter
  | some rest =>
    -- the dot of the start is the first one, so the first segment is `state`
    rw [Text.after?_eq_some_iff.1 hafter] at hsplit
    have hparts := Text.split_append '.' "state" rest
    rw [Text.split_of_not_mem hstate] at hparts
    have hsegments := hparts.symm.trans hsplit
    rw [Option.getD_some, ← hsegments]
    obtain ⟨second, more, hmore⟩ := List.exists_cons_of_ne_nil (Text.split_ne_nil '.' rest)
    rw [hmore]
    rfl

/-- A name without dots is a path of one segment. -/
theorem segments_of_not_mem {field : String} (h : '.' ∉ field.toList) :
    Path.segments field = [field] := by
  have hplain : Plain [field] := ⟨List.cons_ne_nil _ _, List.forall_mem_singleton.2 h⟩
  have hsegments := segments_intercalate hplain
  rwa [String.intercalate_singleton, Expr.withoutState_of_ne (by simp)] at hsegments

end Path

end WorkflowGraph

/-! ## A condition reads what it reports -/

namespace WorkflowGraph.Condition

variable {source : String} {c : Condition}

theorem expr_of_parse (h : parse source = .ok c) : Expr.parse source = .ok c.expr := by
  unfold parse at h
  split at h
  · cases h
  · next hparse =>
    cases h
    exact hparse

/-- A path that is reported is split at its dots into the segments that are followed. -/
theorem split_of_mem_lookups {segments : List String} (h : parse source = .ok c)
    (hsegments : segments ∈ c.expr.lookups) :
    Text.split '.' (String.intercalate "." segments) = segments := by
  have hplain := Expr.plain_of_parse (expr_of_parse h) segments hsegments
  exact Text.split_intercalate hplain.1 hplain.2

/-- **A condition reads only the paths that it reports.** Whatever text it is read from, it holds in
both or in neither of two states in which each reported path, split at its dots, leads to the same
value or leads nowhere. The paths that it reports are the leaves of its tree, and these are the
paths of its text, which follow each other in it, without a start `state`. -/
theorem reads_reported_paths (h : parse source = .ok c) :
    (∀ fields fields' : Fields,
      (∀ path ∈ c.paths,
        fields.follow? (Text.split '.' path) = fields'.follow? (Text.split '.' path)) →
      c.holds fields = c.holds fields') ∧
    c.paths = c.expr.lookups.map (String.intercalate ".") ∧
    ∃ ts, Token.scan source = .ok ts ∧ ts.Pairwise (fun t u => t.position < u.position) ∧
      c.expr.lookups = (ts.filterMap fun t => t.lexeme.path?).map Expr.withoutState := by
  refine ⟨fun fields fields' hsame => ?_, Expr.paths_eq c.expr, ?_⟩
  · have hlookups : ∀ segments ∈ c.expr.lookups,
        fields.follow? segments = fields'.follow? segments := by
      intro segments hsegments
      have hpath : String.intercalate "." segments ∈ c.paths := by
        rw [paths, Expr.paths_eq]
        exact List.mem_map_of_mem hsegments
      have hsplit := hsame _ hpath
      rwa [split_of_mem_lookups h hsegments] at hsplit
    rw [holds, holds, Expr.eval_congr hlookups]
  · have hparse := expr_of_parse h
    have hlocated := Cursor.located_scan source
    unfold Expr.parse at hparse
    split at hparse
    · cases hparse
    · next ts hscan =>
      rw [hscan] at hlocated
      exact ⟨ts, hscan, hlocated.2, Expr.lookups_eq_of_ofTokens hparse⟩

/-- A draft that two states differ in does not count for a condition over the review of it. -/
theorem review_condition_reads_two_paths :
    ∃ c, parse "state.review.score >= 8 and not done" = .ok c ∧
      c.paths = ["review.score", "done"] ∧
      c.holds [("review", .object [("score", .int 9)])] =
        c.holds [("draft", .int 2), ("review", .object [("score", .int 9)])] := by
  have hpaths : ((parse "state.review.score >= 8 and not done").toOption.map paths) =
      some ["review.score", "done"] := by decide +kernel
  cases h : parse "state.review.score >= 8 and not done" with
  | error e =>
    rw [h] at hpaths
    cases hpaths
  | ok c =>
    rw [h] at hpaths
    have hc : c.paths = ["review.score", "done"] := Option.some.inj hpaths
    refine ⟨c, rfl, hc, (reads_reported_paths h).1 _ _ ?_⟩
    rw [hc]
    refine List.forall_mem_cons.2 ⟨?_, List.forall_mem_singleton.2 ?_⟩
    · rfl
    · rfl

end WorkflowGraph.Condition
