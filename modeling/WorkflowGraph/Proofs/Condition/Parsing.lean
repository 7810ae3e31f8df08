import WorkflowGraph.Proofs.Condition.Grammar

/-!
# Reading conditions by their grammar

The readers of conditions have the fuel that they need, and with more of it they give the same
(`Expr.enough`). So they satisfy equations in which there is no fuel, and by these they follow
every derivation of the grammar, up to the limit on its depth (`Expr.Derives.followed`). A list of
tokens is therefore accepted exactly if the grammar derives it, with the one tree that it has.
-/

set_option autoImplicit false

namespace WorkflowGraph

/-- How tightly a lexeme binds what stands before it. A parenthesis binds a path, as a call would;
what can only end a condition does not bind. -/
def Lexeme.tightness : Lexeme → Nat
  | .open => 4
  | .comparison _ => 3
  | .and => 2
  | .or => 1
  | _ => 0

/-- How tightly a lexeme must bind to tear the end of a phrase away from it. -/
def Phrase.tightness : Phrase → Nat
  | .or => 1
  | .and => 2
  | .unary => 3
  | .comparison => 3
  | .operand => 4

/-- The phrase that a repetition repeats, and any other phrase itself. -/
def Phrase.part : Phrase → Phrase
  | .or => .and
  | .and => .unary
  | p => p

namespace Expr

variable {fuel more ending depth : Nat} {lhs e : Expr} {ts rest : List Token}

/-! ## Fuel -/

/-- Whether further fuel changes nothing once the readers have as much as they need for a list of
tokens. -/
structure Enough (fuel : Nat) : Prop where
  or : ∀ {ending depth ts more}, 6 * ts.length + 5 ≤ fuel →
    readOr (fuel + more) ending depth ts = readOr fuel ending depth ts
  orTail : ∀ {ending depth lhs ts more}, 6 * ts.length + 1 ≤ fuel →
    readOrTail (fuel + more) ending depth lhs ts = readOrTail fuel ending depth lhs ts
  and : ∀ {ending depth ts more}, 6 * ts.length + 4 ≤ fuel →
    readAnd (fuel + more) ending depth ts = readAnd fuel ending depth ts
  andTail : ∀ {ending depth lhs ts more}, 6 * ts.length + 1 ≤ fuel →
    readAndTail (fuel + more) ending depth lhs ts = readAndTail fuel ending depth lhs ts
  unary : ∀ {ending depth ts more}, 6 * ts.length + 3 ≤ fuel →
    readUnary (fuel + more) ending depth ts = readUnary fuel ending depth ts
  comparison : ∀ {ending depth ts more}, 6 * ts.length + 2 ≤ fuel →
    readComparison (fuel + more) ending depth ts = readComparison fuel ending depth ts
  operand : ∀ {ending depth ts more}, 6 * ts.length + 1 ≤ fuel →
    readOperand (fuel + more) ending depth ts = readOperand fuel ending depth ts

theorem Enough.or_succ (hf : Enough fuel) (h : 6 * ts.length + 5 ≤ fuel + 1) :
    readOr (fuel + more + 1) ending depth ts = readOr (fuel + 1) ending depth ts := by
  unfold readOr
  rw [hf.and (by omega)]
  split
  · rfl
  · next lhs between hlhs =>
    have := ((sound fuel).and hlhs).length_lt
    exact hf.orTail (by omega)

theorem Enough.orTail_succ (hf : Enough fuel) (h : 6 * ts.length + 1 ≤ fuel + 1) :
    readOrTail (fuel + more + 1) ending depth lhs ts =
      readOrTail (fuel + 1) ending depth lhs ts := by
  unfold readOrTail
  split
  · next position more =>
    rw [List.length_cons] at h
    rw [hf.and (by omega)]
    split
    · rfl
    · next rhs between hrhs =>
      have := ((sound fuel).and hrhs).length_lt
      exact hf.orTail (by omega)
  · rfl

theorem Enough.and_succ (hf : Enough fuel) (h : 6 * ts.length + 4 ≤ fuel + 1) :
    readAnd (fuel + more + 1) ending depth ts = readAnd (fuel + 1) ending depth ts := by
  unfold readAnd
  rw [hf.unary (by omega)]
  split
  · rfl
  · next lhs between hlhs =>
    have := ((sound fuel).unary hlhs).length_lt
    exact hf.andTail (by omega)

theorem Enough.andTail_succ (hf : Enough fuel) (h : 6 * ts.length + 1 ≤ fuel + 1) :
    readAndTail (fuel + more + 1) ending depth lhs ts =
      readAndTail (fuel + 1) ending depth lhs ts := by
  unfold readAndTail
  split
  · next position more =>
    rw [List.length_cons] at h
    rw [hf.unary (by omega)]
    split
    · rfl
    · next rhs between hrhs =>
      have := ((sound fuel).unary hrhs).length_lt
      exact hf.andTail (by omega)
  · rfl

theorem Enough.unary_succ (hf : Enough fuel) (h : 6 * ts.length + 3 ≤ fuel + 1) :
    readUnary (fuel + more + 1) ending depth ts = readUnary (fuel + 1) ending depth ts := by
  unfold readUnary
  split
  · rw [List.length_cons] at h
    split
    · rfl
    · rw [hf.unary (by omega)]
  · exact hf.comparison (by omega)

theorem Enough.comparison_succ (hf : Enough fuel) (h : 6 * ts.length + 2 ≤ fuel + 1) :
    readComparison (fuel + more + 1) ending depth ts =
      readComparison (fuel + 1) ending depth ts := by
  unfold readComparison
  rw [hf.operand (by omega)]
  split
  · rfl
  · next lhs op position more hlhs =>
    have hless := ((sound fuel).operand hlhs).length_lt
    rw [List.length_cons] at hless
    rw [hf.operand (by omega)]
  · rfl

theorem Enough.operand_succ (hf : Enough fuel) (h : 6 * ts.length + 1 ≤ fuel + 1) :
    readOperand (fuel + more + 1) ending depth ts = readOperand (fuel + 1) ending depth ts := by
  unfold readOperand
  split
  · rfl
  · next t after =>
    rw [List.length_cons] at h
    split
    case h_7 =>
      split
      · rfl
      · rw [hf.or (by omega)]
    all_goals rfl

/-- **There is enough fuel.** By induction on it, one lemma for each reader: on the way to the next
token at most six of them are passed. -/
theorem enough (fuel : Nat) : Enough fuel := by
  induction fuel with
  | zero => constructor <;> intros <;> omega
  | succ fuel ih =>
    have hadd (more : Nat) : fuel + 1 + more = fuel + more + 1 := by omega
    constructor <;> intros <;> rw [hadd]
    · exact ih.or_succ ‹_›
    · exact ih.orTail_succ ‹_›
    · exact ih.and_succ ‹_›
    · exact ih.andTail_succ ‹_›
    · exact ih.unary_succ ‹_›
    · exact ih.comparison_succ ‹_›
    · exact ih.operand_succ ‹_›

/-! ## Reading without fuel -/

/-- Read a phrase with just enough fuel. -/
def read (ending depth : Nat) (ts : List Token) : Phrase → Parsed
  | .or => readOr (6 * ts.length + 5) ending depth ts
  | .and => readAnd (6 * ts.length + 4) ending depth ts
  | .unary => readUnary (6 * ts.length + 3) ending depth ts
  | .comparison => readComparison (6 * ts.length + 2) ending depth ts
  | .operand => readOperand (6 * ts.length + 1) ending depth ts

/-- Read the further parts of a phrase with just enough fuel. Only disjunctions and conjunctions
have any. -/
def readTail (ending depth : Nat) (lhs : Expr) (ts : List Token) : Phrase → Parsed
  | .or => readOrTail (6 * ts.length + 1) ending depth lhs ts
  | .and => readAndTail (6 * ts.length + 1) ending depth lhs ts
  | _ => .ok (lhs, ts)

theorem readOr_eq (h : 6 * ts.length + 5 ≤ fuel) :
    readOr fuel ending depth ts = read ending depth ts .or := by
  obtain ⟨more, rfl⟩ := Nat.exists_eq_add_of_le h
  exact (enough _).or (Nat.le_refl _)

theorem readOrTail_eq (h : 6 * ts.length + 1 ≤ fuel) :
    readOrTail fuel ending depth lhs ts = readTail ending depth lhs ts .or := by
  obtain ⟨more, rfl⟩ := Nat.exists_eq_add_of_le h
  exact (enough _).orTail (Nat.le_refl _)

theorem readAnd_eq (h : 6 * ts.length + 4 ≤ fuel) :
    readAnd fuel ending depth ts = read ending depth ts .and := by
  obtain ⟨more, rfl⟩ := Nat.exists_eq_add_of_le h
  exact (enough _).and (Nat.le_refl _)

theorem readAndTail_eq (h : 6 * ts.length + 1 ≤ fuel) :
    readAndTail fuel ending depth lhs ts = readTail ending depth lhs ts .and := by
  obtain ⟨more, rfl⟩ := Nat.exists_eq_add_of_le h
  exact (enough _).andTail (Nat.le_refl _)

theorem readUnary_eq (h : 6 * ts.length + 3 ≤ fuel) :
    readUnary fuel ending depth ts = read ending depth ts .unary := by
  obtain ⟨more, rfl⟩ := Nat.exists_eq_add_of_le h
  exact (enough _).unary (Nat.le_refl _)

theorem readOperand_eq (h : 6 * ts.length + 1 ≤ fuel) :
    readOperand fuel ending depth ts = read ending depth ts .operand := by
  obtain ⟨more, rfl⟩ := Nat.exists_eq_add_of_le h
  exact (enough _).operand (Nat.le_refl _)

theorem read_or (ending depth : Nat) (ts : List Token) :
    read ending depth ts .or =
      match read ending depth ts .and with
      | .error e => .error e
      | .ok (lhs, rest) => readTail ending depth lhs rest .or := by
  show readOr (6 * ts.length + 5) ending depth ts = _
  unfold readOr
  rw [readAnd_eq (Nat.le_refl _)]
  cases hlhs : read ending depth ts .and with
  | error e => rfl
  | ok found =>
    obtain ⟨lhs, rest⟩ := found
    have := ((sound _).and hlhs).length_lt
    exact readOrTail_eq (by omega)

theorem read_and (ending depth : Nat) (ts : List Token) :
    read ending depth ts .and =
      match read ending depth ts .unary with
      | .error e => .error e
      | .ok (lhs, rest) => readTail ending depth lhs rest .and := by
  show readAnd (6 * ts.length + 4) ending depth ts = _
  unfold readAnd
  rw [readUnary_eq (Nat.le_refl _)]
  cases hlhs : read ending depth ts .unary with
  | error e => rfl
  | ok found =>
    obtain ⟨lhs, rest⟩ := found
    have := ((sound _).unary hlhs).length_lt
    exact readAndTail_eq (by omega)

theorem readTail_or_cons (ending depth position : Nat) (lhs : Expr) (ts : List Token) :
    readTail ending depth lhs (⟨.or, position⟩ :: ts) .or =
      match read ending depth ts .and with
      | .error e => .error e
      | .ok (rhs, rest) => readTail ending depth (.or lhs rhs) rest .or := by
  show readOrTail (6 * (ts.length + 1) + 1) ending depth lhs (⟨.or, position⟩ :: ts) = _
  unfold readOrTail
  dsimp only
  rw [readAnd_eq (by omega)]
  cases hrhs : read ending depth ts .and with
  | error e => rfl
  | ok found =>
    obtain ⟨rhs, rest⟩ := found
    have := ((sound _).and hrhs).length_lt
    exact readOrTail_eq (by omega)

theorem readTail_and_cons (ending depth position : Nat) (lhs : Expr) (ts : List Token) :
    readTail ending depth lhs (⟨.and, position⟩ :: ts) .and =
      match read ending depth ts .unary with
      | .error e => .error e
      | .ok (rhs, rest) => readTail ending depth (.and lhs rhs) rest .and := by
  show readAndTail (6 * (ts.length + 1) + 1) ending depth lhs (⟨.and, position⟩ :: ts) = _
  unfold readAndTail
  dsimp only
  rw [readUnary_eq (by omega)]
  cases hrhs : read ending depth ts .unary with
  | error e => rfl
  | ok found =>
    obtain ⟨rhs, rest⟩ := found
    have := ((sound _).unary hrhs).length_lt
    exact readAndTail_eq (by omega)

theorem read_not (ending depth position : Nat) (ts : List Token) :
    read ending depth (⟨.not, position⟩ :: ts) .unary =
      match descend depth position with
      | .error e => .error e
      | .ok deeper =>
        match read ending deeper ts .unary with
        | .error e => .error e
        | .ok (inner, rest) => .ok (.not inner, rest) := by
  show readUnary (6 * (ts.length + 1) + 3) ending depth (⟨.not, position⟩ :: ts) = _
  unfold readUnary
  dsimp only
  cases descend depth position with
  | error e => rfl
  | ok deeper =>
    dsimp only
    have hread : readUnary (6 * (ts.length + 1) + 2) ending deeper ts =
        read ending deeper ts .unary := readUnary_eq (by omega)
    cases hinner : read ending deeper ts .unary with
    | error e => simp only [hread, hinner]
    | ok found => simp only [hread, hinner]

theorem read_plain (h : ∀ t ∈ ts.head?, t.lexeme ≠ .not) :
    read ending depth ts .unary = read ending depth ts .comparison := by
  show readUnary (6 * ts.length + 3) ending depth ts = _
  unfold readUnary
  split
  · exact (h _ rfl rfl).elim
  · rfl

theorem read_comparison_of_error {fault : FaultAt}
    (h : read ending depth ts .operand = .error fault) :
    read ending depth ts .comparison = .error fault := by
  show readComparison (6 * ts.length + 2) ending depth ts = _
  unfold readComparison
  rw [readOperand_eq (Nat.le_refl _), h]

theorem read_single (h : read ending depth ts .operand = .ok (e, rest))
    (hrest : ∀ t ∈ rest.head?, ∀ op, t.lexeme ≠ .comparison op) :
    read ending depth ts .comparison = .ok (e, rest) := by
  show readComparison (6 * ts.length + 2) ending depth ts = _
  unfold readComparison
  rw [readOperand_eq (Nat.le_refl _), h]
  split
  · next heq => cases heq
  · next heq =>
    cases heq
    exact (hrest _ rfl _ rfl).elim
  · next heq => exact heq.symm

theorem read_compare {op : Comparison} {position : Nat}
    (h : read ending depth ts .operand = .ok (lhs, ⟨.comparison op, position⟩ :: rest)) :
    read ending depth ts .comparison =
      match read ending depth rest .operand with
      | .error e => .error e
      | .ok (rhs, rest) => .ok (.compare op lhs rhs, rest) := by
  have hless := ((sound _).operand h).length_lt
  rw [List.length_cons] at hless
  show readComparison (6 * ts.length + 2) ending depth ts = _
  unfold readComparison
  rw [readOperand_eq (Nat.le_refl _), h]
  dsimp only
  have hread : readOperand (6 * ts.length + 1) ending depth rest =
      read ending depth rest .operand := readOperand_eq (by omega)
  cases hrhs : read ending depth rest .operand with
  | error e => simp only [hread, hrhs]
  | ok found => simp only [hread, hrhs]

theorem read_literal {t : Token} (l : Literal) (h : t.lexeme = l.lexeme) :
    read ending depth (t :: rest) .operand = .ok (.literal l, rest) := by
  show readOperand (6 * (rest.length + 1) + 1) ending depth (t :: rest) = _
  cases l <;> simp only [readOperand, h, Literal.lexeme]

theorem read_path {segments : List String} {position : Nat}
    (h : ∀ t ∈ rest.head?, t.lexeme ≠ .open) :
    read ending depth (⟨.path segments, position⟩ :: rest) .operand =
      .ok (.path (withoutState segments), rest) := by
  show readOperand (6 * (rest.length + 1) + 1) ending depth _ = _
  unfold readOperand
  dsimp only
  split
  · exact (h _ rfl rfl).elim
  · rfl

theorem read_group_of_error {position deeper : Nat} {fault : FaultAt}
    (hdeeper : descend depth position = .ok deeper)
    (h : read ending deeper ts .or = .error fault) :
    read ending depth (⟨.open, position⟩ :: ts) .operand = .error fault := by
  show readOperand (6 * (ts.length + 1) + 1) ending depth (⟨.open, position⟩ :: ts) = _
  unfold readOperand
  dsimp only
  rw [hdeeper]
  dsimp only
  rw [readOr_eq (by omega), h]

theorem read_group {position position' deeper : Nat}
    (hdeeper : descend depth position = .ok deeper)
    (h : read ending deeper ts .or = .ok (e, ⟨.close, position'⟩ :: rest)) :
    read ending depth (⟨.open, position⟩ :: ts) .operand = .ok (e, rest) := by
  show readOperand (6 * (ts.length + 1) + 1) ending depth (⟨.open, position⟩ :: ts) = _
  unfold readOperand
  dsimp only
  rw [hdeeper]
  dsimp only
  rw [readOr_eq (by omega), h]

theorem read_group_of_deep {position : Nat} {fault : FaultAt}
    (hdeep : descend depth position = .error fault) :
    read ending depth (⟨.open, position⟩ :: ts) .operand = .error fault := by
  show readOperand (6 * (ts.length + 1) + 1) ending depth (⟨.open, position⟩ :: ts) = _
  unfold readOperand
  dsimp only
  rw [hdeep]

/-! ## Following a derivation -/

/-- Whether a phrase can end before some tokens: the next one does not bind more tightly. -/
def Stops (p : Phrase) (rest : List Token) : Prop :=
  ∀ t ∈ rest.head?, t.lexeme.tightness < p.tightness

theorem stops_nil (p : Phrase) : Stops p [] := fun _ ht => by cases ht

theorem stops_cons {p : Phrase} (t : Token) (rest : List Token)
    (h : t.lexeme.tightness < p.tightness) :
    Stops p (t :: rest) := fun _ ht => by
  obtain rfl := Option.some.inj ht
  exact h

theorem Stops.mono {p q : Phrase} (h : Stops p rest) (hpq : p.tightness ≤ q.tightness) :
    Stops q rest := fun t ht => Nat.lt_of_lt_of_le (h t ht) hpq

theorem Stops.ne {p : Phrase} {t : Token} {l : Lexeme} (h : Stops p rest) (ht : t ∈ rest.head?)
    (hl : p.tightness ≤ l.tightness) : t.lexeme ≠ l := by
  rintro rfl
  have := h t ht
  omega

/-- A repetition ends where its phrase can. -/
theorem readTail_of_stops {p : Phrase} (h : Stops p rest) :
    readTail ending depth e rest p = .ok (e, rest) := by
  cases p with
  | or =>
    show readOrTail (6 * rest.length + 1) ending depth e rest = _
    unfold readOrTail
    split
    · exact (h.ne rfl (Nat.le_refl _) rfl).elim
    · rfl
  | and =>
    show readAndTail (6 * rest.length + 1) ending depth e rest = _
    unfold readAndTail
    split
    · exact (h.ne rfl (Nat.le_refl _) rfl).elim
    · rfl
  | unary | comparison | operand => rfl

/-- Whether reading gives what is expected of it, or stops because too many `not`s and
parentheses would be open if `n` more were. -/
def Settles (n depth : Nat) (r expected : Parsed) : Prop :=
  r = expected ∨ maxDepth < depth + n ∧ ∃ position, r = .error ⟨position, .nestedTooDeeply⟩

theorem Settles.trans {n : Nat} {r r' r'' : Parsed} (h : Settles n depth r r')
    (h' : Settles n depth r' r'') : Settles n depth r r'' := by
  obtain rfl | hdeep := h
  · exact h'
  · exact .inr hdeep

/-- What a reader goes on with settles as well. -/
theorem Settles.step {n : Nat} {r : Parsed} (k : Expr → List Token → Parsed) :
    Settles n depth r (.ok (e, rest)) →
    Settles n depth
      (match r with
      | .error fault => .error fault
      | .ok (e, rest) => k e rest) (k e rest) := by
  rintro (rfl | ⟨hdeep, position, rfl⟩)
  · exact .inl rfl
  · exact .inr ⟨hdeep, position, rfl⟩

/-- Below a `not` or a parenthesis there is one level less. -/
theorem Settles.descend {n : Nat} {r expected : Parsed} (position : Nat)
    (hdeep : ∀ fault, descend depth position = .error fault → r = .error fault)
    (h : descend depth position = .ok (depth + 1) → Settles n (depth + 1) r expected) :
    Settles (n + 1) depth r expected := by
  by_cases hlimit : maxDepth < depth + 1
  · exact .inr ⟨by omega, position, hdeep _ (if_pos hlimit)⟩
  · obtain hr | ⟨hfar, hfault⟩ := h (if_neg hlimit)
    · exact .inl hr
    · exact .inr ⟨by omega, hfault⟩

/-- Neither a comparison nor an operand starts with `not`. -/
theorem Derives.head_ne_not {p : Phrase} {n : Nat} {w : List Lexeme} (h : Derives p n w e)
    (hp : p = .comparison ∨ p = .operand) : ∀ l ∈ w.head?, l ≠ .not := by
  induction h with
  | single _ ih => exact ih (.inr rfl)
  | compare hlhs _ ih _ =>
    intro l hl
    rw [List.head?_append, Option.or_of_isSome (List.isSome_head?.2 hlhs.ne_nil)] at hl
    exact ih (.inr rfl) l hl
  | literal l => cases l <;> simp [Literal.lexeme]
  | path | statePath | group => simp
  | disjunct | or | conjunct | and | not | plain => simp at hp

/-- Whether lexemes with a tree are read to this tree as some phrase, wherever its parts can end.
What follows is left to the further parts of the phrase. -/
def Followed (p : Phrase) (n : Nat) (w : List Lexeme) (e : Expr) : Prop :=
  ∀ (ending depth : Nat) (ts rest : List Token), ts.map Token.lexeme = w → Stops p.part rest →
    Settles n depth (read ending depth (ts ++ rest) p) (readTail ending depth e rest p)

/-- Where the phrase itself can end, it is read to its tree. -/
theorem Followed.whole {p : Phrase} {n : Nat} {w : List Lexeme} (h : Followed p n w e)
    (ending depth : Nat) (hts : ts.map Token.lexeme = w) (hrest : Stops p rest) :
    Settles n depth (read ending depth (ts ++ rest) p) (.ok (e, rest)) := by
  rw [← readTail_of_stops hrest]
  exact h ending depth ts rest hts (hrest.mono (by cases p <;> decide))

section
variable {n : Nat} {w v : List Lexeme} {lhs rhs : Expr}

theorem Followed.disjunct (h : Followed .and n w e) : Followed .or n w e := by
  intro ending depth ts rest hts hrest
  rw [read_or]
  exact (h.whole ending depth hts hrest).step fun e rest => readTail ending depth e rest .or

theorem Followed.or (hlhs : Followed .or n w lhs) (hrhs : Followed .and n v rhs) :
    Followed .or n (w ++ .or :: v) (.or lhs rhs) := by
  intro ending depth ts rest hts hrest
  obtain ⟨before, _, rfl, hbefore, hmore⟩ := List.map_eq_append_iff.1 hts
  obtain ⟨⟨_, position⟩, after, rfl, rfl, hafter⟩ := List.map_eq_cons_iff.1 hmore
  have hleft := hlhs ending depth before (⟨.or, position⟩ :: (after ++ rest)) hbefore
    (stops_cons _ _ (Nat.le_refl 2))
  rw [readTail_or_cons] at hleft
  rw [List.append_assoc, List.cons_append]
  exact hleft.trans ((hrhs.whole ending depth hafter hrest).step fun rhs rest =>
    readTail ending depth (.or lhs rhs) rest .or)

theorem Followed.conjunct (h : Followed .unary n w e) : Followed .and n w e := by
  intro ending depth ts rest hts hrest
  rw [read_and]
  exact (h.whole ending depth hts hrest).step fun e rest => readTail ending depth e rest .and

theorem Followed.and (hlhs : Followed .and n w lhs) (hrhs : Followed .unary n v rhs) :
    Followed .and n (w ++ .and :: v) (.and lhs rhs) := by
  intro ending depth ts rest hts hrest
  obtain ⟨before, _, rfl, hbefore, hmore⟩ := List.map_eq_append_iff.1 hts
  obtain ⟨⟨_, position⟩, after, rfl, rfl, hafter⟩ := List.map_eq_cons_iff.1 hmore
  have hleft := hlhs ending depth before (⟨.and, position⟩ :: (after ++ rest)) hbefore
    (stops_cons _ _ (Nat.le_refl 3))
  rw [readTail_and_cons] at hleft
  rw [List.append_assoc, List.cons_append]
  exact hleft.trans ((hrhs.whole ending depth hafter hrest).step fun rhs rest =>
    readTail ending depth (.and lhs rhs) rest .and)

theorem Followed.not (h : Followed .unary n w e) : Followed .unary (n + 1) (.not :: w) (.not e) := by
  intro ending depth ts rest hts hrest
  obtain ⟨⟨_, position⟩, after, rfl, rfl, hafter⟩ := List.map_eq_cons_iff.1 hts
  rw [List.cons_append, read_not]
  refine Settles.descend position (fun fault hfault => ?_) (fun hdeeper => ?_)
  · rw [hfault]
  · rw [hdeeper]
    exact (h.whole ending (depth + 1) hafter hrest).step fun inner rest => .ok (.not inner, rest)

theorem Followed.plain (h : Followed .comparison n w e) (hne : w ≠ [])
    (hw : ∀ l ∈ w.head?, l ≠ .not) : Followed .unary n w e := by
  intro ending depth ts rest hts hrest
  obtain ⟨l, w', rfl⟩ := List.exists_cons_of_ne_nil hne
  obtain ⟨t, ts', rfl, rfl, -⟩ := List.map_eq_cons_iff.1 hts
  rw [List.cons_append, read_plain fun t' ht' => by
    obtain rfl := Option.some.inj ht'
    exact hw _ rfl]
  exact h.whole ending depth hts hrest

theorem Followed.single (h : Followed .operand n w e) : Followed .comparison n w e := by
  intro ending depth ts rest hts hrest
  obtain hread | ⟨hdeep, position, hread⟩ :=
    h.whole ending depth hts (hrest.mono (show 3 ≤ 4 by decide))
  · exact .inl (read_single hread fun t ht op => hrest.ne ht (Nat.le_refl 3))
  · exact .inr ⟨hdeep, position, read_comparison_of_error hread⟩

theorem Followed.compare (op : Comparison) (hlhs : Followed .operand n w lhs)
    (hrhs : Followed .operand n v rhs) :
    Followed .comparison n (w ++ .comparison op :: v) (.compare op lhs rhs) := by
  intro ending depth ts rest hts hrest
  obtain ⟨before, _, rfl, hbefore, hmore⟩ := List.map_eq_append_iff.1 hts
  obtain ⟨⟨_, position⟩, after, rfl, rfl, hafter⟩ := List.map_eq_cons_iff.1 hmore
  rw [List.append_assoc, List.cons_append]
  obtain hread | ⟨hdeep, position, hread⟩ := hlhs.whole ending depth hbefore
    (stops_cons ⟨.comparison op, position⟩ (after ++ rest) (Nat.le_refl 4))
  · rw [read_compare hread]
    exact (hrhs.whole ending depth hafter (hrest.mono (show 3 ≤ 4 by decide))).step
      fun rhs rest => .ok (.compare op lhs rhs, rest)
  · exact .inr ⟨hdeep, position, read_comparison_of_error hread⟩

theorem followed_path (n : Nat) (segments : List String) :
    Followed .operand n [.path segments] (.path (withoutState segments)) := by
  intro ending depth ts rest hts hrest
  obtain ⟨⟨_, position⟩, _, rfl, rfl, hnil⟩ := List.map_eq_cons_iff.1 hts
  obtain rfl := List.map_eq_nil_iff.1 hnil
  exact .inl (read_path fun t ht => hrest.ne ht (Nat.le_refl 4))

theorem Followed.group (h : Followed .or n w e) :
    Followed .operand (n + 1) (.open :: w ++ [.close]) e := by
  intro ending depth ts rest hts hrest
  obtain ⟨⟨_, position⟩, _, rfl, rfl, hmore⟩ := List.map_eq_cons_iff.1 hts
  obtain ⟨within, _, rfl, hwithin, hclose⟩ := List.map_eq_append_iff.1 hmore
  obtain ⟨⟨_, position'⟩, _, rfl, rfl, hnil⟩ := List.map_eq_cons_iff.1 hclose
  obtain rfl := List.map_eq_nil_iff.1 hnil
  rw [List.cons_append, List.append_assoc]
  refine Settles.descend position (fun fault => read_group_of_deep) fun hdeeper => ?_
  obtain hread | ⟨hdeep, position, hread⟩ := h.whole ending (depth + 1) hwithin
    (stops_cons ⟨.close, position'⟩ rest Nat.zero_lt_one)
  · exact .inl (read_group hdeeper hread)
  · exact .inr ⟨hdeep, position, read_group_of_error hdeeper hread⟩

end

/-- **Reading follows a derivation.** By induction on the derivation. -/
theorem Derives.followed {p : Phrase} {n : Nat} {w : List Lexeme} (h : Derives p n w e) :
    Followed p n w e := by
  induction h with
  | disjunct _ ih => exact ih.disjunct
  | or _ _ ihlhs ihrhs => exact ihlhs.or ihrhs
  | conjunct _ ih => exact ih.conjunct
  | and _ _ ihlhs ihrhs => exact ihlhs.and ihrhs
  | not _ ih => exact ih.not
  | plain h ih => exact ih.plain h.ne_nil (h.head_ne_not (.inl rfl))
  | single _ ih => exact ih.single
  | compare _ _ ihlhs ihrhs => exact ihlhs.compare _ ihrhs
  | literal l =>
    intro ending depth ts rest hts _
    obtain ⟨t, _, rfl, ht, hnil⟩ := List.map_eq_cons_iff.1 hts
    obtain rfl := List.map_eq_nil_iff.1 hnil
    exact .inl (read_literal l ht)
  | @path n segments h =>
    have hpath := followed_path n segments
    rwa [withoutState_of_ne h] at hpath
  | statePath => exact followed_path _ _
  | group _ ih => exact ih.group

/-! ## Whole conditions -/

/-- A condition is accepted if reading a disjunction leaves nothing over. -/
theorem ofTokens_eq_ok_iff {ending : Nat} {ts : List Token} {e : Expr} :
    ofTokens ending ts = .ok e ↔
      ts.length ≤ Token.maxCount ∧ read ending 0 ts .or = .ok (e, []) := by
  cases ts with
  | nil =>
    refine ⟨fun h => (by cases h), fun ⟨_, h⟩ => ?_⟩
    exact (Nat.not_lt_zero _ ((sound _).or h).length_lt).elim
  | cons t ts =>
    unfold ofTokens
    rw [readOr_eq (Nat.le_succ _)]
    cases hlong : (t :: ts)[Token.maxCount]? with
    | some t' =>
      have := (List.getElem?_eq_some_iff.1 hlong).1
      simp only [reduceCtorEq, false_iff, not_and]
      omega
    | none =>
      have := List.getElem?_eq_none_iff.1 hlong
      rw [and_iff_right this]
      rcases read ending 0 (t :: ts) .or with fault | ⟨e', _ | ⟨t', rest⟩⟩ <;> simp

/-- A derivation that does not go too deep is accepted with its tree, and one that does is at
least not taken for anything else. -/
theorem Derives.accepted {n : Nat} {ts : List Token} (ending : Nat)
    (h : Derives .or n (ts.map Token.lexeme) e) :
    read ending 0 ts .or = .ok (e, []) ∨
      maxDepth < n ∧ ∃ fault, read ending 0 ts .or = .error fault := by
  have hread := h.followed.whole ending 0 rfl (stops_nil .or)
  rw [List.append_nil] at hread
  obtain hread | ⟨hdeep, position, hread⟩ := hread
  · exact .inl hread
  · exact .inr ⟨by omega, _, hread⟩

/-- **The reader accepts exactly its grammar.** A list of tokens has a tree if and only if it is not
too long and the grammar derives it with this tree, with at most 128 `not`s and parentheses open at
once. No derivation, however deep, has another tree. Every other list gives a fault, and the fuel
does not matter. -/
theorem ofTokens_accepts_grammar (ending : Nat) (ts : List Token) :
    (∀ e, ofTokens ending ts = .ok e ↔
      ts.length ≤ 2048 ∧ Derives .or 128 (ts.map Token.lexeme) e) ∧
    (∀ e n e', ofTokens ending ts = .ok e → Derives .or n (ts.map Token.lexeme) e' → e' = e) ∧
    ((¬∃ e, ts.length ≤ 2048 ∧ Derives .or 128 (ts.map Token.lexeme) e) →
      ∃ fault, ofTokens ending ts = .error fault) ∧
    ∀ fuel, 6 * ts.length + 6 ≤ fuel →
      readOr fuel ending 0 ts = readOr (6 * ts.length + 6) ending 0 ts := by
  have hiff (e : Expr) : ofTokens ending ts = .ok e ↔
      ts.length ≤ 2048 ∧ Derives .or 128 (ts.map Token.lexeme) e := by
    rw [ofTokens_eq_ok_iff]
    refine and_congr_right fun _ => ⟨fun h => ?_, fun h => ?_⟩
    · obtain ⟨whole, rfl, hwhole⟩ := (sound _).or h
      rwa [List.append_nil]
    · obtain hread | ⟨hdeep, -⟩ := h.accepted ending
      · exact hread
      · exact absurd hdeep (by decide)
  refine ⟨hiff, fun e n e' h h' => ?_, fun hnone => ?_, fun fuel hfuel => ?_⟩
  · have hread := (ofTokens_eq_ok_iff.1 h).2
    obtain hread' | ⟨-, fault, hread'⟩ := h'.accepted ending
    · rw [hread] at hread'
      cases hread'
      rfl
    · rw [hread] at hread'
      cases hread'
  · cases h : ofTokens ending ts with
    | error fault => exact ⟨fault, rfl⟩
    | ok e => exact absurd ⟨e, (hiff e).1 h⟩ hnone
  · rw [readOr_eq (Nat.le_of_succ_le hfuel), readOr_eq (Nat.le_succ _)]

example : ofTokens 20 [⟨.path ["a"], 0⟩, ⟨.or, 2⟩, ⟨.not, 5⟩, ⟨.path ["state", "b"], 9⟩, ⟨.and, 17⟩,
    ⟨.path ["c"], 21⟩] = .ok (.or (.path ["a"]) (.and (.not (.path ["b"])) (.path ["c"]))) := by cbv

end Expr

end WorkflowGraph
