import WorkflowGraph.Condition.Eval
import WorkflowGraph.Proofs.Condition.Cursor
import WorkflowGraph.Proofs.Condition.Parsing

/-!
# Conditions are read within their text

Reading a condition comes to an end, takes parts of its text only from between characters, and
reports every token and every fault at a boundary of a character within the text
(`Condition.read_within_text`). The tokens are read over the bytes of the text (`Cursor.scan_eq`).
The grammar is read over the tokens: its readers report a fault at a token that they are given, or
at the end of the text (`Expr.reports`).
-/

set_option autoImplicit false

namespace WorkflowGraph

namespace Expr

/-! ## Faults of the grammar -/

/-- Whether the fault of a reading lies at an offset of some kind, if the end of the text and the
tokens do. -/
def FaultsAt (P : Nat → Prop) (ending : Nat) (ts : List Token) (r : Parsed) : Prop :=
  P ending → (∀ t ∈ ts, P t.position) → ∀ ⦃fault⦄, r = .error fault → P fault.position

/-- Whether the readers with some fuel report no fault at other offsets than they are given. -/
structure Reports (P : Nat → Prop) (fuel : Nat) : Prop where
  or : ∀ {ending depth ts}, FaultsAt P ending ts (readOr fuel ending depth ts)
  orTail : ∀ {ending depth lhs ts}, FaultsAt P ending ts (readOrTail fuel ending depth lhs ts)
  and : ∀ {ending depth ts}, FaultsAt P ending ts (readAnd fuel ending depth ts)
  andTail : ∀ {ending depth lhs ts}, FaultsAt P ending ts (readAndTail fuel ending depth lhs ts)
  unary : ∀ {ending depth ts}, FaultsAt P ending ts (readUnary fuel ending depth ts)
  comparison : ∀ {ending depth ts}, FaultsAt P ending ts (readComparison fuel ending depth ts)
  operand : ∀ {ending depth ts}, FaultsAt P ending ts (readOperand fuel ending depth ts)

variable {P : Nat → Prop} {fuel ending depth : Nat} {lhs e : Expr} {ts rest : List Token}
  {fault : FaultAt}

/-- What holds of all tokens holds of those behind a phrase. -/
theorem Starts.forall_rest {p : Phrase} {Q : Token → Prop} (h : Starts p depth ts e rest)
    (hts : ∀ t ∈ ts, Q t) : ∀ t ∈ rest, Q t := by
  obtain ⟨read, rfl, -⟩ := h
  exact (List.forall_mem_append.1 hts).2

theorem faultsAt_ending {kind : ConditionFault} : FaultsAt P ending ts (.error ⟨ending, kind⟩) := by
  intro hending _ fault h
  cases h
  exact hending

theorem position_of_descend {position : Nat} (hposition : P position)
    (h : descend depth position = .error fault) : P fault.position := by
  unfold descend at h
  split at h
  · cases h
    exact hposition
  · cases h

theorem position_of_offsetOf (hending : P ending) (hts : ∀ t ∈ ts, P t.position) :
    P (offsetOf ending ts) := by
  cases ts with
  | nil => exact hending
  | cons t more => exact hts t List.mem_cons_self

theorem Reports.or_succ (hr : Reports P fuel) :
    FaultsAt P ending ts (readOr (fuel + 1) ending depth ts) := by
  intro hending hts fault h
  unfold readOr at h
  split at h
  · next hlhs =>
    cases h
    exact hr.and hending hts hlhs
  · next hlhs => exact hr.orTail hending (((sound fuel).and hlhs).forall_rest hts) h

theorem Reports.orTail_succ (hr : Reports P fuel) :
    FaultsAt P ending ts (readOrTail (fuel + 1) ending depth lhs ts) := by
  intro hending hts fault h
  unfold readOrTail at h
  split at h
  · next position more =>
    have hmore := (List.forall_mem_cons.1 hts).2
    split at h
    · next hrhs =>
      cases h
      exact hr.and hending hmore hrhs
    · next hrhs => exact hr.orTail hending (((sound fuel).and hrhs).forall_rest hmore) h
  · cases h

theorem Reports.and_succ (hr : Reports P fuel) :
    FaultsAt P ending ts (readAnd (fuel + 1) ending depth ts) := by
  intro hending hts fault h
  unfold readAnd at h
  split at h
  · next hlhs =>
    cases h
    exact hr.unary hending hts hlhs
  · next hlhs => exact hr.andTail hending (((sound fuel).unary hlhs).forall_rest hts) h

theorem Reports.andTail_succ (hr : Reports P fuel) :
    FaultsAt P ending ts (readAndTail (fuel + 1) ending depth lhs ts) := by
  intro hending hts fault h
  unfold readAndTail at h
  split at h
  · next position more =>
    have hmore := (List.forall_mem_cons.1 hts).2
    split at h
    · next hrhs =>
      cases h
      exact hr.unary hending hmore hrhs
    · next hrhs => exact hr.andTail hending (((sound fuel).unary hrhs).forall_rest hmore) h
  · cases h

theorem Reports.unary_succ (hr : Reports P fuel) :
    FaultsAt P ending ts (readUnary (fuel + 1) ending depth ts) := by
  intro hending hts fault h
  unfold readUnary at h
  split at h
  · next position more =>
    obtain ⟨hnot, hmore⟩ := List.forall_mem_cons.1 hts
    split at h
    · next hdescend =>
      cases h
      exact position_of_descend hnot hdescend
    · split at h
      · next hinner =>
        cases h
        exact hr.unary hending hmore hinner
      · cases h
  · exact hr.comparison hending hts h

theorem Reports.comparison_succ (hr : Reports P fuel) :
    FaultsAt P ending ts (readComparison (fuel + 1) ending depth ts) := by
  intro hending hts fault h
  unfold readComparison at h
  split at h
  · next hlhs =>
    cases h
    exact hr.operand hending hts hlhs
  · next hlhs =>
    have hmore := (List.forall_mem_cons.1 (((sound fuel).operand hlhs).forall_rest hts)).2
    split at h
    · next hrhs =>
      cases h
      exact hr.operand hending hmore hrhs
    · cases h
  · cases h

theorem Reports.operand_succ (hr : Reports P fuel) :
    FaultsAt P ending ts (readOperand (fuel + 1) ending depth ts) := by
  intro hending hts fault h
  unfold readOperand at h
  split at h
  · cases h
    exact hending
  · next t rest =>
    obtain ⟨ht, hrest⟩ := List.forall_mem_cons.1 hts
    split at h
    case h_6 =>
      split at h
      · cases h
        exact ht
      · cases h
    case h_7 =>
      split at h
      · next hdescend =>
        cases h
        exact position_of_descend ht hdescend
      · split at h
        · next hinner =>
          cases h
          exact hr.or hending hrest hinner
        · cases h
        · next hinner =>
          cases h
          exact position_of_offsetOf hending (((sound fuel).or hinner).forall_rest hrest)
    case h_8 =>
      cases h
      exact ht
    all_goals cases h

/-- **Readers report faults at a token or at the end.** By induction on the fuel, one lemma for each
reader. -/
theorem reports (P : Nat → Prop) (fuel : Nat) : Reports P fuel := by
  induction fuel with
  | zero =>
    constructor <;> intros <;> simp only [readOr, readOrTail, readAnd, readAndTail, readUnary,
      readComparison, readOperand] <;> exact faultsAt_ending
  | succ fuel ih =>
    exact ⟨ih.or_succ, ih.orTail_succ, ih.and_succ, ih.andTail_succ, ih.unary_succ,
      ih.comparison_succ, ih.operand_succ⟩

theorem position_of_ofTokens (hstart : P 0) (hending : P ending) (hts : ∀ t ∈ ts, P t.position)
    (h : ofTokens ending ts = .error fault) : P fault.position := by
  unfold ofTokens at h
  split at h
  · cases h
    exact hstart
  · split at h
    · next t ht =>
      cases h
      exact hts t (List.mem_of_getElem? ht)
    · split at h
      · next hread =>
        cases h
        exact (reports P _).or hending hts hread
      · cases h
      · next t more hread =>
        cases h
        have ht := (((sound _).or hread).forall_rest hts) t List.mem_cons_self
        unfold leftover
        split <;> exact ht

end Expr

/-! ## The text of a condition -/

/-- Whether an offset lies within a text, between two characters or at an end. -/
def Boundary (s : String) (p : Nat) : Prop :=
  p ≤ s.utf8ByteSize ∧ String.Pos.Raw.IsValid s ⟨p⟩

theorem boundary_of_isValid {s : String} {p : Nat} (h : String.Pos.Raw.IsValid s ⟨p⟩) :
    Boundary s p :=
  ⟨h.le_utf8ByteSize, h⟩

theorem Cursor.StartsIn.lt {s : String} {p : Nat} {t : Token} (h : StartsIn s p t) :
    t.position < s.utf8ByteSize := by
  obtain ⟨-, c, rest, hat⟩ := h
  have hbytes := hat.add_byteLength
  have := c.utf8Size_pos
  rw [Token.byteLength] at hbytes
  omega

theorem Cursor.StartsIn.boundary {s : String} {p : Nat} {t : Token} (h : StartsIn s p t) :
    Boundary s t.position := by
  obtain ⟨-, c, rest, hat⟩ := h
  exact boundary_of_isValid hat.isValid

theorem Expr.boundary_of_parse {source : String} {fault : FaultAt}
    (h : parse source = .error fault) : Boundary source fault.position := by
  have hlocated := Cursor.located_scan source
  unfold parse at h
  split at h
  · next hscan =>
    cases h
    rw [hscan] at hlocated
    exact boundary_of_isValid hlocated
  · next ts hscan =>
    rw [hscan] at hlocated
    refine position_of_ofTokens ?_ ?_ (fun t ht => (hlocated.1 t ht).boundary) h
    · exact boundary_of_isValid (Cursor.at_start source).isValid
    · exact boundary_of_isValid String.Pos.Raw.isValid_rawEndPos

namespace Condition

/-- **A condition is read within its text.** For every text, the tokens are read in as many rounds
as the text has bytes and one more, and no part of the text is taken but from between characters.
The tokens start at characters, each behind the one before it, and the grammar is read over them
whatever the fuel. What is refused is refused at a boundary within the text. -/
theorem read_within_text (source : String) :
    (∀ rounds, source.utf8ByteSize < rounds →
      Cursor.scan rounds source = some (Token.scan source)) ∧
    (match Token.scan source with
      | .error fault => Boundary source fault.position
      | .ok ts =>
        (∀ t ∈ ts, t.position < source.utf8ByteSize ∧ Boundary source t.position) ∧
        ts.Pairwise (fun t u => t.position < u.position) ∧
        ∀ fuel, 6 * ts.length + 6 ≤ fuel →
          Expr.readOr fuel source.utf8ByteSize 0 ts =
            Expr.readOr (6 * ts.length + 6) source.utf8ByteSize 0 ts) ∧
    ∀ e, parse source = .error e → e.expression = source ∧ Boundary source e.position := by
  refine ⟨fun _ => Cursor.scan_eq source, ?_, fun e h => ?_⟩
  · have hlocated := Cursor.located_scan source
    split
    · next hscan =>
      rw [hscan] at hlocated
      exact boundary_of_isValid hlocated
    · next ts hscan =>
      rw [hscan] at hlocated
      refine ⟨fun t ht => ⟨(hlocated.1 t ht).lt, (hlocated.1 t ht).boundary⟩, hlocated.2,
        fun fuel hfuel => ?_⟩
      rw [Expr.readOr_eq (Nat.le_of_succ_le hfuel), Expr.readOr_eq (Nat.le_succ _)]
  · unfold parse at h
    split at h
    · next hparse =>
      cases h
      exact ⟨rfl, Expr.boundary_of_parse hparse⟩
    · cases h

example : Token.scan "a == 'é\\n' or b" = .ok [⟨.path ["a"], 0⟩, ⟨.comparison .eq, 2⟩,
    ⟨.text "é\n", 5⟩, ⟨.or, 12⟩, ⟨.path ["b"], 15⟩] := by cbv

end Condition

end WorkflowGraph
