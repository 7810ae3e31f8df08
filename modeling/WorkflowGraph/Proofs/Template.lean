import WorkflowGraph.Proofs.Condition.Lookups
import WorkflowGraph.Template

/-!
# Paths in conditions and in templates

A path that a condition accepts as a single token is read in three places: as an operand of a
condition, as a path of its own, and as a placeholder of a template. The first two leave out a start
`state` once. A placeholder leaves it out where it is cut out of its template, and once more where
its path is read, so it differs from the others exactly at `state.state.` with a field behind it
(`path_readers_agree_iff`).
-/

set_option autoImplicit false

namespace WorkflowGraph

/-! ## The tokens of a path -/

namespace Token

/-- Text that is left over where there is no token consists of separators. -/
theorem eq_nil_of_scanFrom {fuel position : Nat} {cs : List Char} (hfuel : cs.length ≤ fuel)
    (hcs : ∀ c ∈ cs, isSeparator c = false) (h : scanFrom fuel position cs = .ok []) :
    cs = [] := by
  cases cs with
  | nil => rfl
  | cons c rest =>
    obtain ⟨fuel, rfl⟩ := Nat.exists_eq_add_of_lt (Nat.zero_lt_of_lt hfuel)
    rw [Nat.zero_add, scanFrom, if_neg (by simp [hcs c List.mem_cons_self])] at h
    split at h
    · cases h
    · dsimp only at h
      split at h <;> cases h

/-- **A text that is a single path** is the path, written with dots. -/
theorem written_of_scan {p : String} {segments : List String} {position : Nat}
    (hscan : scan p = .ok [⟨.path segments, position⟩])
    (hp : ∀ c ∈ p.toList, isSeparator c = false) :
    Path.Written segments ∧ p = String.intercalate "." segments := by
  unfold scan at hscan
  cases hcs : p.toList with
  | nil =>
    rw [hcs, scanFrom] at hscan
    cases hscan
  | cons c cs =>
    rw [hcs] at hscan hp
    rw [List.length_cons, scanFrom, if_neg (by simp [hp c List.mem_cons_self])] at hscan
    split at hscan
    · cases hscan
    · next lexeme after hlexeme =>
      dsimp only at hscan
      split at hscan
      · cases hscan
      · next tokens htokens =>
        cases hscan
        obtain ⟨hwritten, htext⟩ := readLexeme_path hlexeme
        have hnil : after = [] := by
          refine eq_nil_of_scanFrom ?_ (fun c' hc' => hp c' ?_) htokens
          · obtain ⟨first, rest, rfl, -⟩ := hwritten.starts
            have hlength := congrArg List.length htext
            have hpos := List.length_pos_iff.2 (hwritten.words first List.mem_cons_self).1
            rw [Path.toList_intercalate] at hlength
            simp only [List.length_cons, List.length_append] at hlength
            omega
          · rw [htext]
            exact List.mem_append_right _ hc'
        rw [hnil, List.append_nil] at htext
        exact ⟨hwritten, String.toList_inj.1 (hcs.trans htext)⟩

end Token

/-- A text that is a single path is a condition, whose operand is the path without its start
`state`. -/
theorem Expr.parse_of_scan {p : String} {segments : List String} {position : Nat}
    (hscan : Token.scan p = .ok [⟨.path segments, position⟩]) :
    Expr.parse p = .ok (.path (Expr.withoutState segments)) := by
  simp [Expr.parse, hscan, ofTokens, readOr, readOrTail, readAnd, readAndTail, readUnary,
    readComparison, readOperand, Token.maxCount]

/-! ## A path as a placeholder -/

namespace Template

/-- The segments of a placeholder without the start that is left out where it is read. -/
def kept (segments : List String) : List String :=
  (withoutState (segments.map String.toList)).map String.ofList

theorem takeWhile_inName {word rest : List Char} (hword : ∀ c ∈ word, inName c)
    (hrest : rest.head?.any inName = false) :
    (word ++ rest).takeWhile inName = word ∧ (word ++ rest).dropWhile inName = rest := by
  rw [List.takeWhile_append_of_pos hword, List.dropWhile_append_of_pos hword]
  cases rest with
  | nil => simp
  | cons c cs =>
    have hc : inName c = false := hrest
    simp [hc]

/-- What stands behind a segment is no part of it: a dot or the closing brace. -/
theorem head?_behind (segments : List String) :
    (Path.behind segments ++ ['\x7d']).head?.any inName = false := by
  cases segments with
  | nil => decide
  | cons s rest => rfl

theorem takeSegments_behind {fuel : Nat} {segments : List String} (hfuel : segments.length < fuel)
    (h : ∀ s ∈ segments, s.toList ≠ [] ∧ ∀ c ∈ s.toList, inName c) :
    takeSegments fuel (Path.behind segments ++ ['\x7d']) =
      (segments.map String.toList, ['\x7d']) := by
  induction segments generalizing fuel with
  | nil =>
    obtain ⟨fuel, rfl⟩ := Nat.exists_eq_add_of_lt hfuel
    rfl
  | cons s rest ih =>
    obtain ⟨⟨hne, hs⟩, hrest⟩ := List.forall_mem_cons.1 h
    obtain ⟨fuel, rfl⟩ := Nat.exists_eq_add_of_lt (Nat.zero_lt_of_lt hfuel)
    obtain ⟨htake, hdrop⟩ := takeWhile_inName hs (head?_behind rest)
    rw [Path.behind_cons, List.cons_append, List.append_assoc, Nat.zero_add, takeSegments, htake,
      hdrop, if_neg (by simpa using hne), ih (by simpa using hfuel) hrest, List.map_cons]

/-- A character that starts a name is no blank. -/
theorem isBlank_of_startsName {c : Char} (h : startsName c) : Text.isBlank c = false := by
  simp only [startsName, Bool.or_eq_true, Bool.and_eq_true, decide_eq_true_eq, beq_iff_eq,
    Char.le_def, UInt32.le_iff_toNat_le] at h
  obtain (⟨hlow, hhigh⟩ | ⟨hlow, hhigh⟩) | rfl := h
  · have hlow : 97 ≤ c.toNat := hlow
    have hhigh : c.toNat ≤ 122 := hhigh
    simp [Text.isBlank]
    omega
  · have hlow : 65 ≤ c.toNat := hlow
    have hhigh : c.toNat ≤ 90 := hhigh
    simp [Text.isBlank]
    omega
  · decide

theorem trimStart_cons {c : Char} {cs : List Char} (h : Text.isBlank c = false) :
    Text.trimStart (c :: cs) = c :: cs := by
  simp [Text.trimStart, h]

/-- The path of a placeholder is read up to the closing brace. -/
theorem readHole?_written {segments : List String} (h : Path.Written segments) :
    readHole? ((String.intercalate "." segments).toList ++ ['\x7d']) =
      some (String.intercalate "." (kept segments), []) := by
  obtain ⟨hwords, first, rest, rfl, hfirst⟩ := h
  obtain ⟨⟨hne, hword⟩, hrest⟩ := List.forall_mem_cons.1 hwords
  obtain ⟨c, cs, hcs⟩ := List.exists_cons_of_ne_nil hne
  have hstarts : startsName c := by
    rw [hcs] at hfirst
    exact hfirst
  have hbrace : c ≠ '\x7b' := by
    rintro rfl
    revert hstarts
    decide
  obtain ⟨htake, hdrop⟩ := takeWhile_inName hword (head?_behind rest)
  have hfuel : rest.length < (first.toList ++ (Path.behind rest ++ ['\x7d'])).length := by
    have := Path.length_le_behind rest
    simp only [List.length_append, List.length_singleton]
    omega
  have hmore := takeSegments_behind hfuel hrest
  rw [Path.toList_intercalate, List.append_assoc]
  rw [hcs, List.cons_append] at htake hdrop hmore ⊢
  unfold readHole?
  split
  · next hopen => exact (hbrace (List.cons.inj hopen).1).elim
  · dsimp only
    rw [trimStart_cons (isBlank_of_startsName hstarts), List.head?_cons, Option.any_some,
      if_pos hstarts, htake, hdrop, hmore]
    dsimp only
    rw [trimStart_cons (by decide), ← hcs]
    rfl

/-- **A path in braces is a placeholder**, which leaves out the start `state` before the path is
read. -/
theorem pieces_written {segments : List String} (h : Path.Written segments) :
    pieces ("\x7b" ++ String.intercalate "." segments ++ "\x7d") =
      [.hole ("\x7b" ++ String.intercalate "." segments ++ "\x7d").toList
        (String.intercalate "." (kept segments))] := by
  have htext : ("\x7b" ++ String.intercalate "." segments ++ "\x7d").toList =
      '\x7b' :: ((String.intercalate "." segments).toList ++ ['\x7d']) := by
    simp
  rw [pieces, htext, List.length_cons, piecesFrom, if_pos rfl, readHole?_written h]
  dsimp only [piecesFrom]
  rw [List.length_nil, Nat.sub_zero, ← List.length_cons, List.take_length, piecesFrom]

theorem kept_cons_cons (first second : String) (rest : List String) :
    kept (first :: second :: rest) =
      if first = "state" ∧ second.toList.head?.any startsName then second :: rest
      else first :: second :: rest := by
  have hmap : (rest.map String.toList).map String.ofList = rest := by
    simp [Function.comp_def]
  have hstate : first.toList = "state".toList ↔ first = "state" := String.toList_inj
  rw [kept, List.map_cons, List.map_cons, withoutState]
  split
  · next h => rw [if_pos ⟨hstate.1 h.1, h.2⟩, List.map_cons, String.ofList_toList, hmap]
  · next h =>
    rw [if_neg (h ∘ And.imp_left hstate.2), List.map_cons, List.map_cons, String.ofList_toList,
      String.ofList_toList, hmap]

/-- What a placeholder keeps is read without the start `state`, which a placeholder has left out
already. -/
theorem withoutState_kept (segments : List String) :
    Expr.withoutState (kept segments) = Expr.withoutState (Expr.withoutState segments) := by
  match segments with
  | [] => rfl
  | [first] =>
    have hkept : kept [first] = [first] := by simp [kept, withoutState]
    have hread : Expr.withoutState [first] = [first] := Expr.withoutState_of_ne (by simp)
    rw [hkept, hread, hread]
  | first :: second :: rest =>
    rw [kept_cons_cons]
    by_cases hfirst : first = "state"
    · subst hfirst
      rw [Expr.withoutState]
      split
      · rfl
      · next hsecond =>
        -- the second segment does not start as a name does, so it is not `state`
        rw [Expr.withoutState, Expr.withoutState_of_ne]
        rintro third more heq
        cases heq
        exact hsecond ⟨rfl, by decide⟩
    · have hrest : Expr.withoutState (first :: second :: rest) = first :: second :: rest := by
        refine Expr.withoutState_of_ne fun third more heq => ?_
        cases heq
        exact hfirst rfl
      rw [if_neg fun h => hfirst h.1, hrest, hrest]

theorem plain_kept {segments : List String} (h : Plain segments) : Plain (kept segments) := by
  match segments with
  | [] => exact h
  | [first] => simpa [kept, withoutState] using h
  | first :: second :: rest =>
    rw [kept_cons_cons]
    split
    · exact ⟨List.cons_ne_nil _ _, fun s hs => h.2 s (List.mem_cons_of_mem _ hs)⟩
    · exact h

end Template

/-! ## Values -/

/-- A value that leads along a path to another one, and nowhere else. -/
def Value.nest (leaf : Value) : List String → Value
  | [] => leaf
  | segment :: rest => .object [(segment, leaf.nest rest)]

theorem Value.follow?_nest (leaf : Value) (path : List String) :
    (leaf.nest path).follow? path = some leaf := by
  induction path with
  | nil => rfl
  | cons segment rest ih =>
    rw [nest, follow?, step?, Dict.get?_cons, if_pos rfl, Option.bind_some, ih]

/-- A path that is too short leads to an object on the way, if anywhere. -/
theorem Value.exists_object_of_follow?_nest {leaf v : Value} {path short : List String}
    (hlength : short.length < path.length) (h : (leaf.nest path).follow? short = some v) :
    ∃ fields, v = .object fields := by
  induction short generalizing path with
  | nil =>
    obtain ⟨segment, rest, rfl⟩ := List.exists_cons_of_length_pos hlength
    cases h
    exact ⟨_, rfl⟩
  | cons first more ih =>
    obtain ⟨segment, rest, rfl⟩ := List.exists_cons_of_length_pos (Nat.zero_lt_of_lt hlength)
    rw [nest, follow?, step?, Dict.get?_cons] at h
    split at h
    · exact ih (Nat.lt_of_succ_lt_succ hlength) h
    · cases h

/-- **Leaving out a further `state` makes a difference** in some state. -/
theorem Fields.exists_insertion_ne (field : String) (rest : List String) :
    ∃ fields : Fields, Template.insertion (fields.follow? ("state" :: field :: rest)) ≠
      Template.insertion (fields.follow? (field :: rest)) := by
  refine ⟨[("state", (Value.text "x").nest (field :: rest))], ?_⟩
  have hlong : Fields.follow? [("state", (Value.text "x").nest (field :: rest))]
      ("state" :: field :: rest) = some (.text "x") :=
    Value.follow?_nest (.text "x") (field :: rest)
  rw [hlong, Fields.follow?, Dict.get?_cons]
  split
  · rw [Option.bind_some]
    cases hshort : ((Value.text "x").nest (field :: rest)).follow? rest with
    | none => decide
    | some v =>
      obtain ⟨fields, rfl⟩ := Value.exists_object_of_follow?_nest (Nat.lt_succ_self _) hshort
      intro heq
      have := congrArg String.toList heq
      simp [Template.insertion, Value.display, Json.compact] at this
  · rw [Dict.get?_nil, Option.bind_none]
    decide

theorem Fields.at?_intercalate {segments : List String} (h : Plain segments) (fields : Fields) :
    fields.at? (String.intercalate "." segments) =
      fields.follow? (Expr.withoutState segments) := by
  rw [Fields.at?, Path.segments_intercalate h]

/-- Whether the start `state` of a path is followed by another one and a further segment. -/
def Path.StartsTwice (segments : List String) : Prop :=
  ∃ field rest, segments = "state" :: "state" :: field :: rest

/-- A start `state` is left out for a second time only where another one follows it. -/
theorem Expr.withoutState_withoutState {segments : List String}
    (h : ¬ Path.StartsTwice segments) :
    withoutState (withoutState segments) = withoutState segments := by
  refine withoutState_of_ne fun field rest heq => h ?_
  unfold withoutState at heq
  split at heq
  · next second more => exact ⟨field, rest, by rw [heq]⟩
  · next hne => exact (hne _ _ heq).elim

/-- **The readers of paths agree unless `state.state.` starts a path.** A text that is a single path
is a condition whose operand is the value that the path names. In braces it is a placeholder; what
is read for it is the value that the path names, in every state, exactly if the path does not start
with `state.state.` and a further segment, and exactly then the text inserted is always that of the
value. -/
theorem path_readers_agree_iff {p : String} {segments : List String} {position : Nat}
    (hscan : Token.scan p = .ok [⟨.path segments, position⟩])
    (hp : ∀ c ∈ p.toList, Token.isSeparator c = false) :
    (∃ operand, Expr.parse p = .ok operand ∧
      ∀ fields : Fields, operand.eval fields = fields.at? p) ∧
    ∃ read, Template.pieces ("\x7b" ++ p ++ "\x7d") =
        [.hole ("\x7b" ++ p ++ "\x7d").toList read] ∧
      (∀ fields, Template.render ("\x7b" ++ p ++ "\x7d") fields =
        Template.insertion (fields.at? read)) ∧
      ((∀ fields : Fields, fields.at? read = fields.at? p) ↔ ¬ Path.StartsTwice segments) ∧
      ((∀ fields, Template.render ("\x7b" ++ p ++ "\x7d") fields =
        Template.insertion (fields.at? p)) ↔ ¬ Path.StartsTwice segments) := by
  obtain ⟨hwritten, htext⟩ := Token.written_of_scan hscan hp
  have hplain := hwritten.plain
  have hat (fields : Fields) : fields.at? p = fields.follow? (Expr.withoutState segments) := by
    rw [htext, Fields.at?_intercalate hplain]
  have hread (fields : Fields) : fields.at? (String.intercalate "." (Template.kept segments)) =
      fields.follow? (Expr.withoutState (Expr.withoutState segments)) := by
    rw [Fields.at?_intercalate (Template.plain_kept hplain), Template.withoutState_kept]
  have hpieces := Template.pieces_written hwritten
  rw [← htext] at hpieces
  have hrender (fields : Fields) : Template.render ("\x7b" ++ p ++ "\x7d") fields =
      Template.insertion (fields.at? (String.intercalate "." (Template.kept segments))) := by
    rw [Template.render, hpieces, List.map_singleton, Template.Piece.render]
    simp [String.join]
  have hsame (h : ¬ Path.StartsTwice segments) (fields : Fields) :
      fields.at? (String.intercalate "." (Template.kept segments)) = fields.at? p := by
    rw [hread, hat, Expr.withoutState_withoutState h]
  have hdiffers (h : ∀ fields : Fields,
      Template.insertion (fields.at? (String.intercalate "." (Template.kept segments))) =
        Template.insertion (fields.at? p)) : ¬ Path.StartsTwice segments := by
    rintro ⟨field, rest, rfl⟩
    obtain ⟨fields, hne⟩ := Fields.exists_insertion_ne field rest
    refine hne ?_
    have := h fields
    rw [hread, hat] at this
    exact this.symm
  exact ⟨⟨_, Expr.parse_of_scan hscan, fun fields => (hat fields).symm⟩, _, hpieces, hrender,
    ⟨fun h => hdiffers fun fields => by rw [h], hsame⟩,
    ⟨fun h => hdiffers fun fields => by rw [← hrender, h],
      fun h fields => by rw [hrender, hsame h]⟩⟩

/-- A path with a start `state`, on which the three readers agree. -/
theorem path_readers_agree_request_user :
    Token.scan "state.request.user" = .ok [⟨.path ["state", "request", "user"], 0⟩] ∧
      ∀ fields, Template.render "\x7bstate.request.user\x7d" fields =
        Template.insertion (fields.at? "state.request.user") := by
  have hscan : Token.scan "state.request.user" = .ok [⟨.path ["state", "request", "user"], 0⟩] := by
    rfl
  obtain ⟨-, read, -, -, -, hrender⟩ := path_readers_agree_iff hscan (by simp [Token.isSeparator])
  refine ⟨hscan, hrender.2 ?_⟩
  rintro ⟨field, rest, heq⟩
  simp at heq

/-- A path on which they do not: `state.state.x` is the part `x` of the field `state` for a
condition, and the field `x` for a template. -/
theorem path_readers_differ_state_state :
    Token.scan "state.state.x" = .ok [⟨.path ["state", "state", "x"], 0⟩] ∧
      (∃ operand, Expr.parse "state.state.x" = .ok operand ∧
        operand.eval [("state", .object [("x", .text "inner")])] = some (.text "inner")) ∧
      Fields.at? [("state", .object [("x", .text "inner")])] "state.state.x" =
        some (.text "inner") ∧
      Template.render "\x7bstate.state.x\x7d" [("state", .object [("x", .text "inner")])] = "" := by
  have hscan : Token.scan "state.state.x" = .ok [⟨.path ["state", "state", "x"], 0⟩] := by rfl
  exact ⟨hscan, ⟨_, Expr.parse_of_scan hscan, rfl⟩, rfl, by decide⟩

end WorkflowGraph
