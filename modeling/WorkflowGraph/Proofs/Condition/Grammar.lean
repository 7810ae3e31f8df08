import WorkflowGraph.Condition.Expr

/-!
# The grammar of conditions as a relation

What the grammar of conditions derives, said without any reader: a list of lexemes belongs to a
phrase of the grammar and has a tree (`Expr.Derives`). The rules are those of the grammar, a
repetition `x ("op" x)*` being read from the left. Every rule carries a number that bounds how many
`not`s and parentheses are open at once. Soundness of the reader says that it only finds trees that
the grammar derives (`Expr.sound`).
-/

set_option autoImplicit false

namespace WorkflowGraph

/-- The lexeme of a literal. -/
def Literal.lexeme : Literal → Lexeme
  | .int n => .int n
  | .float x => .float x
  | .text s => .text s
  | .bool b => .bool b
  | .null => .null

/-- The phrases of the grammar, from the loosest to the tightest. -/
inductive Phrase where
  | or
  | and
  | unary
  | comparison
  | operand
  deriving DecidableEq

namespace Expr

/-- The lexemes that a phrase consists of, and the tree that they have. The number is not exceeded
by the number of `not`s and parentheses that are open at any point. -/
inductive Derives : Phrase → Nat → List Lexeme → Expr → Prop where
  | disjunct {n : Nat} {w : List Lexeme} {e : Expr} (h : Derives .and n w e) : Derives .or n w e
  | or {n : Nat} {w v : List Lexeme} {lhs rhs : Expr} (hlhs : Derives .or n w lhs)
    (hrhs : Derives .and n v rhs) : Derives .or n (w ++ .or :: v) (.or lhs rhs)
  | conjunct {n : Nat} {w : List Lexeme} {e : Expr} (h : Derives .unary n w e) : Derives .and n w e
  | and {n : Nat} {w v : List Lexeme} {lhs rhs : Expr} (hlhs : Derives .and n w lhs)
    (hrhs : Derives .unary n v rhs) : Derives .and n (w ++ .and :: v) (.and lhs rhs)
  | not {n : Nat} {w : List Lexeme} {e : Expr} (h : Derives .unary n w e) :
    Derives .unary (n + 1) (.not :: w) (.not e)
  | plain {n : Nat} {w : List Lexeme} {e : Expr} (h : Derives .comparison n w e) :
    Derives .unary n w e
  | single {n : Nat} {w : List Lexeme} {e : Expr} (h : Derives .operand n w e) :
    Derives .comparison n w e
  | compare {n : Nat} {w v : List Lexeme} {op : Comparison} {lhs rhs : Expr}
    (hlhs : Derives .operand n w lhs) (hrhs : Derives .operand n v rhs) :
    Derives .comparison n (w ++ .comparison op :: v) (.compare op lhs rhs)
  | literal {n : Nat} (l : Literal) : Derives .operand n [l.lexeme] (.literal l)
  | path {n : Nat} {segments : List String}
    (h : ∀ second rest, segments ≠ "state" :: second :: rest) :
    Derives .operand n [.path segments] (.path segments)
  | statePath {n : Nat} {second : String} {rest : List String} :
    Derives .operand n [.path ("state" :: second :: rest)] (.path (second :: rest))
  | group {n : Nat} {w : List Lexeme} {e : Expr} (h : Derives .or n w e) :
    Derives .operand (n + 1) (.open :: w ++ [.close]) e

/-- A path is derived without the start `state`. -/
theorem derives_path (n : Nat) (segments : List String) :
    Derives .operand n [.path segments] (.path (withoutState segments)) := by
  unfold withoutState
  split
  · exact .statePath
  · next h => exact .path h

theorem withoutState_of_ne {segments : List String}
    (h : ∀ second rest, segments ≠ "state" :: second :: rest) :
    withoutState segments = segments := by
  unfold withoutState
  split
  · next second rest => exact (h second rest rfl).elim
  · rfl

theorem Derives.ne_nil {p : Phrase} {n : Nat} {w : List Lexeme} {e : Expr}
    (h : Derives p n w e) : w ≠ [] := by
  induction h with
  | disjunct _ ih => exact ih
  | conjunct _ ih => exact ih
  | plain _ ih => exact ih
  | single _ ih => exact ih
  | or | and | not | compare | literal | path | statePath | group => simp

/-! ## Soundness -/

/-- Whether tokens start with a phrase that has a tree, behind which others are left. Of the
allowed depth some levels are used up. -/
def Starts (p : Phrase) (depth : Nat) (ts : List Token) (e : Expr) (rest : List Token) : Prop :=
  ∃ read, ts = read ++ rest ∧ Derives p (maxDepth - depth) (read.map Token.lexeme) e

theorem Starts.length_lt {p : Phrase} {depth : Nat} {ts rest : List Token} {e : Expr}
    (h : Starts p depth ts e rest) : rest.length < ts.length := by
  obtain ⟨read, rfl, hread⟩ := h
  have hne : read ≠ [] := fun hnil => hread.ne_nil (by rw [hnil, List.map_nil])
  have := List.length_pos_iff.2 hne
  rw [List.length_append]
  omega

/-- Whether a tree that has been read goes on, over further tokens, to another one. -/
def Continues (p : Phrase) (depth : Nat) (lhs : Expr) (ts : List Token) (e : Expr)
    (rest : List Token) : Prop :=
  ∀ before, Derives p (maxDepth - depth) (before.map Token.lexeme) lhs →
    ∃ read, ts = read ++ rest ∧
      Derives p (maxDepth - depth) ((before ++ read).map Token.lexeme) e

theorem Starts.continues {p : Phrase} {depth : Nat} {lhs e : Expr} {ts between rest : List Token}
    (h : Starts p depth ts lhs between) (h' : Continues p depth lhs between e rest) :
    Starts p depth ts e rest := by
  obtain ⟨read, rfl, hread⟩ := h
  obtain ⟨more, rfl, hmore⟩ := h' read hread
  exact ⟨read ++ more, by rw [List.append_assoc], hmore⟩

theorem continues_self (p : Phrase) (depth : Nat) (e : Expr) (ts : List Token) :
    Continues p depth e ts e ts :=
  fun before hbefore => ⟨[], rfl, by rwa [List.append_nil]⟩

/-- Whether the readers with some fuel only find what the grammar derives. -/
structure Sound (fuel : Nat) : Prop where
  or : ∀ {ending depth ts e rest}, readOr fuel ending depth ts = .ok (e, rest) →
    Starts .or depth ts e rest
  orTail : ∀ {ending depth lhs ts e rest}, readOrTail fuel ending depth lhs ts = .ok (e, rest) →
    Continues .or depth lhs ts e rest
  and : ∀ {ending depth ts e rest}, readAnd fuel ending depth ts = .ok (e, rest) →
    Starts .and depth ts e rest
  andTail : ∀ {ending depth lhs ts e rest}, readAndTail fuel ending depth lhs ts = .ok (e, rest) →
    Continues .and depth lhs ts e rest
  unary : ∀ {ending depth ts e rest}, readUnary fuel ending depth ts = .ok (e, rest) →
    Starts .unary depth ts e rest
  comparison : ∀ {ending depth ts e rest}, readComparison fuel ending depth ts = .ok (e, rest) →
    Starts .comparison depth ts e rest
  operand : ∀ {ending depth ts e rest}, readOperand fuel ending depth ts = .ok (e, rest) →
    Starts .operand depth ts e rest

variable {fuel ending depth : Nat} {lhs e : Expr} {ts rest : List Token}

theorem descend_eq_ok {position deeper : Nat} (h : descend depth position = .ok deeper) :
    deeper = depth + 1 ∧ maxDepth - depth = maxDepth - (depth + 1) + 1 := by
  unfold descend at h
  split at h
  · cases h
  · cases h
    exact ⟨rfl, by omega⟩

theorem Sound.or_succ (hs : Sound fuel) (h : readOr (fuel + 1) ending depth ts = .ok (e, rest)) :
    Starts .or depth ts e rest := by
  unfold readOr at h
  split at h
  · cases h
  · next lhs between hlhs =>
    obtain ⟨read, rfl, hread⟩ := hs.and hlhs
    exact Starts.continues ⟨read, rfl, .disjunct hread⟩ (hs.orTail h)

theorem Sound.orTail_succ (hs : Sound fuel)
    (h : readOrTail (fuel + 1) ending depth lhs ts = .ok (e, rest)) :
    Continues .or depth lhs ts e rest := by
  unfold readOrTail at h
  split at h
  · next position more =>
    split at h
    · cases h
    · next rhs between hrhs =>
      intro before hbefore
      obtain ⟨read, rfl, hread⟩ := hs.and hrhs
      obtain ⟨more, rfl, hmore⟩ := hs.orTail h (before ++ ⟨.or, position⟩ :: read) (by
        rw [List.map_append, List.map_cons]
        exact .or hbefore hread)
      refine ⟨⟨.or, position⟩ :: read ++ more, by simp, ?_⟩
      rwa [List.append_assoc] at hmore
  · cases h
    exact continues_self _ _ _ _

theorem Sound.and_succ (hs : Sound fuel)
    (h : readAnd (fuel + 1) ending depth ts = .ok (e, rest)) : Starts .and depth ts e rest := by
  unfold readAnd at h
  split at h
  · cases h
  · next lhs between hlhs =>
    obtain ⟨read, rfl, hread⟩ := hs.unary hlhs
    exact Starts.continues ⟨read, rfl, .conjunct hread⟩ (hs.andTail h)

theorem Sound.andTail_succ (hs : Sound fuel)
    (h : readAndTail (fuel + 1) ending depth lhs ts = .ok (e, rest)) :
    Continues .and depth lhs ts e rest := by
  unfold readAndTail at h
  split at h
  · next position more =>
    split at h
    · cases h
    · next rhs between hrhs =>
      intro before hbefore
      obtain ⟨read, rfl, hread⟩ := hs.unary hrhs
      obtain ⟨more, rfl, hmore⟩ := hs.andTail h (before ++ ⟨.and, position⟩ :: read) (by
        rw [List.map_append, List.map_cons]
        exact .and hbefore hread)
      refine ⟨⟨.and, position⟩ :: read ++ more, by simp, ?_⟩
      rwa [List.append_assoc] at hmore
  · cases h
    exact continues_self _ _ _ _

theorem Sound.unary_succ (hs : Sound fuel)
    (h : readUnary (fuel + 1) ending depth ts = .ok (e, rest)) : Starts .unary depth ts e rest := by
  unfold readUnary at h
  split at h
  · next position more =>
    split at h
    · cases h
    · next deeper hdeeper =>
      obtain ⟨rfl, hdepth⟩ := descend_eq_ok hdeeper
      split at h
      · cases h
      · next inner after hinner =>
        cases h
        obtain ⟨read, rfl, hread⟩ := hs.unary hinner
        refine ⟨⟨.not, position⟩ :: read, rfl, ?_⟩
        rw [hdepth]
        exact .not hread
  · obtain ⟨read, rfl, hread⟩ := hs.comparison h
    exact ⟨read, rfl, .plain hread⟩

theorem Sound.comparison_succ (hs : Sound fuel)
    (h : readComparison (fuel + 1) ending depth ts = .ok (e, rest)) :
    Starts .comparison depth ts e rest := by
  unfold readComparison at h
  split at h
  · cases h
  · next lhs op position more hlhs =>
    split at h
    · cases h
    · next rhs after hrhs =>
      cases h
      obtain ⟨read, rfl, hread⟩ := hs.operand hlhs
      obtain ⟨second, rfl, hsecond⟩ := hs.operand hrhs
      refine ⟨read ++ ⟨.comparison op, position⟩ :: second, by simp, ?_⟩
      rw [List.map_append, List.map_cons]
      exact .compare hread hsecond
  · next lhs after _ hlhs =>
    cases h
    obtain ⟨read, rfl, hread⟩ := hs.operand hlhs
    exact ⟨read, rfl, .single hread⟩

/-- A literal is an operand of its own. -/
theorem starts_literal {t : Token} (l : Literal) (h : t.lexeme = l.lexeme) :
    Starts .operand depth (t :: rest) (.literal l) rest :=
  ⟨[t], rfl, by
    rw [List.map_singleton, h]
    exact .literal l⟩

theorem Sound.operand_succ (hs : Sound fuel)
    (h : readOperand (fuel + 1) ending depth ts = .ok (e, rest)) :
    Starts .operand depth ts e rest := by
  unfold readOperand at h
  split at h
  · cases h
  · next t after =>
    split at h
    · next n hlexeme =>
      cases h
      exact starts_literal (.int n) hlexeme
    · next x hlexeme =>
      cases h
      exact starts_literal (.float x) hlexeme
    · next s hlexeme =>
      cases h
      exact starts_literal (.text s) hlexeme
    · next b hlexeme =>
      cases h
      exact starts_literal (.bool b) hlexeme
    · next hlexeme =>
      cases h
      exact starts_literal .null hlexeme
    · next segments hlexeme =>
      split at h
      · cases h
      · cases h
        refine ⟨[t], rfl, ?_⟩
        rw [List.map_singleton, hlexeme]
        exact derives_path _ segments
    · next hlexeme =>
      split at h
      · cases h
      · next deeper hdeeper =>
        obtain ⟨rfl, hdepth⟩ := descend_eq_ok hdeeper
        split at h
        · cases h
        · next inner position after' hinner =>
          cases h
          obtain ⟨read, rfl, hread⟩ := hs.or hinner
          refine ⟨t :: read ++ [⟨.close, position⟩], by simp, ?_⟩
          rw [List.map_append, List.map_cons, hlexeme, hdepth]
          exact .group hread
        · cases h
    · cases h

/-- **The readers are sound.** By induction on the fuel, one lemma for each of them. -/
theorem sound (fuel : Nat) : Sound fuel := by
  induction fuel with
  | zero =>
    constructor <;> intros <;> simp_all only [readOr, readOrTail, readAnd, readAndTail, readUnary,
      readComparison, readOperand, reduceCtorEq]
  | succ fuel ih =>
    exact ⟨ih.or_succ, ih.orTail_succ, ih.and_succ, ih.andTail_succ, ih.unary_succ,
      ih.comparison_succ, ih.operand_succ⟩

end Expr

end WorkflowGraph
