import Mathlib.Data.String.Basic
import WorkflowGraph.Condition.Token

/-!
# Reading the text of a condition

What the readers of tokens come to, said without their loops. A path is read as a word with further
words behind it, each after a dot. What is read as a path is written as one (`Path.Written`), and it
is the text of its segments with dots between them (`Token.readLexeme_path`). A text literal is read
character by character up to its quote, escapes in pairs; a number is read from its sign and the
digits behind it (`Token.readNumber_eq`).
-/

set_option autoImplicit false

namespace WorkflowGraph

/-! ## Written paths -/

/-- Whether segments are those of a path: there is at least one, and none holds a dot. -/
def Plain (segments : List String) : Prop :=
  segments ≠ [] ∧ ∀ s ∈ segments, '.' ∉ s.toList

/-- The characters of further segments, each behind a dot. -/
def Path.behind (segments : List String) : List Char := segments.flatMap fun s => '.' :: s.toList

/-- Whether segments are those of a path that a condition or a template can hold: each is made of
the characters of words, and the first one starts as a word does. -/
structure Path.Written (segments : List String) : Prop where
  words : ∀ s ∈ segments, s.toList ≠ [] ∧ ∀ c ∈ s.toList, Token.inWord c
  starts : ∃ first rest, segments = first :: rest ∧ first.toList.head?.any Token.startsWord

namespace Path

theorem behind_cons (s : String) (rest : List String) :
    behind (s :: rest) = '.' :: (s.toList ++ behind rest) := rfl

theorem length_le_behind (segments : List String) : segments.length ≤ (behind segments).length := by
  induction segments with
  | nil => exact Nat.le_refl _
  | cons s rest ih =>
    simp only [behind_cons, List.length_cons, List.length_append]
    omega

theorem toList_intercalate (first : String) (rest : List String) :
    (String.intercalate "." (first :: rest)).toList = first.toList ++ behind rest := by
  induction rest generalizing first with
  | nil => simp [behind]
  | cons second more ih =>
    rw [String.intercalate_cons_of_ne_nil (List.cons_ne_nil _ _), String.toList_append,
      String.toList_append, ih, behind_cons, List.append_assoc]
    rfl

theorem Written.plain {segments : List String} (h : Written segments) : Plain segments := by
  obtain ⟨first, rest, rfl, -⟩ := h.starts
  refine ⟨List.cons_ne_nil _ _, fun s hs hdot => ?_⟩
  have : Token.inWord '.' = true := (h.words s hs).2 '.' hdot
  revert this
  decide

end Path

namespace Token

/-! ## Bytes -/

theorem byteLength_eq (cs : List Char) : byteLength cs = String.utf8Len cs := by
  induction cs with
  | nil => rfl
  | cons c rest ih => rw [byteLength, ih, String.utf8Len, Nat.add_comm]

theorem byteLength_append (cs ds : List Char) :
    byteLength (cs ++ ds) = byteLength cs + byteLength ds := by
  induction cs with
  | nil => exact (Nat.zero_add _).symm
  | cons c rest ih => rw [List.cons_append, byteLength, byteLength, ih, Nat.add_assoc]

theorem length_le_byteLength (cs : List Char) : cs.length ≤ byteLength cs := by
  induction cs with
  | nil => exact Nat.le_refl 0
  | cons c rest ih =>
    have := c.utf8Size_pos
    rw [List.length_cons, byteLength]
    omega

/-! ## Reading a path -/

theorem takeWord_append (cs : List Char) : (takeWord cs).1 ++ (takeWord cs).2 = cs :=
  List.takeWhile_append_dropWhile

theorem inWord_of_mem_takeWord {cs : List Char} : ∀ c ∈ (takeWord cs).1, inWord c :=
  List.all_eq_true.1 List.all_takeWhile

/-- The segments of a path after its first one, and the text that they are read from. -/
theorem readSegments_eq_ok {fuel offset : Nat} {done segments : List String} {cs rest : List Char}
    (h : readSegments fuel offset done cs = .ok (segments, rest)) :
    ∃ more, segments = done.reverse ++ more ∧ cs = Path.behind more ++ rest ∧
      ∀ s ∈ more, s.toList ≠ [] ∧ ∀ c ∈ s.toList, inWord c := by
  induction fuel generalizing offset done cs with
  | zero =>
    cases h
    exact ⟨[], by simp, rfl, by simp⟩
  | succ fuel ih =>
    unfold readSegments at h
    split at h
    · next behindDot =>
      dsimp only at h
      split at h
      · cases h
      · next hword =>
        obtain ⟨more, rfl, hafter, hmore⟩ := ih h
        refine ⟨String.ofList (takeWord behindDot).1 :: more, by simp, ?_, ?_⟩
        · rw [Path.behind_cons, String.toList_ofList, List.cons_append, List.append_assoc,
            ← hafter, takeWord_append]
        · refine List.forall_mem_cons.2 ⟨?_, hmore⟩
          rw [String.toList_ofList]
          exact ⟨by simpa using hword, inWord_of_mem_takeWord⟩
    · cases h
      exact ⟨[], by simp, rfl, by simp⟩

theorem readSegments_of_head? {fuel offset : Nat} {done : List String} {cs : List Char}
    (hdot : cs.head? ≠ some '.') :
    readSegments fuel offset done cs = .ok (done.reverse, cs) := by
  cases fuel with
  | zero => rfl
  | succ fuel =>
    unfold readSegments
    split
    · exact absurd rfl hdot
    · rfl

theorem keyword?_ne_path (word : String) (segments : List String) :
    keyword? word ≠ some (.path segments) := by
  unfold keyword?
  split <;> simp

theorem readTextBody_ne_path {quote : Char} {offset : Nat} {done cs rest : List Char}
    {segments : List String} : readTextBody quote offset done cs ≠ .ok (.path segments, rest) := by
  fun_induction readTextBody quote offset done cs <;> simp_all

theorem readNumber_ne_path {cs rest : List Char} {segments : List String} :
    readNumber cs ≠ .ok (.path segments, rest) := by
  unfold readNumber
  dsimp only
  repeat' split
  all_goals simp

/-- The text of a path that a word starts. -/
theorem readWord_eq_ok {c : Char} {cs rest : List Char} {segments : List String}
    (hc : startsWord c) (h : readWord (c :: cs) = .ok (.path segments, rest)) :
    Path.Written segments ∧
      c :: cs = (String.intercalate "." segments).toList ++ rest := by
  unfold readWord at h
  dsimp only at h
  split at h
  · next lexeme hlexeme =>
    cases h
    exact (keyword?_ne_path _ _ hlexeme).elim
  · cases hsegments : readSegments (takeWord (c :: cs)).2.length (takeWord (c :: cs)).1.length
        [String.ofList (takeWord (c :: cs)).1] (takeWord (c :: cs)).2 with
    | error e =>
      rw [hsegments] at h
      cases h
    | ok read =>
      rw [hsegments] at h
      cases h
      obtain ⟨more, hread, hrest, hmore⟩ := readSegments_eq_ok hsegments
      have hword : (takeWord (c :: cs)).1 = c :: (takeWord cs).1 := by
        simp [takeWord, inWord, hc]
      rw [List.reverse_singleton, List.singleton_append] at hread
      rw [hread]
      refine ⟨⟨List.forall_mem_cons.2 ⟨?_, hmore⟩, _, _, rfl, ?_⟩, ?_⟩
      · rw [String.toList_ofList]
        exact ⟨by simp [hword], inWord_of_mem_takeWord⟩
      · rw [String.toList_ofList, hword]
        exact hc
      · rw [Path.toList_intercalate, String.toList_ofList, List.append_assoc, ← hrest,
          takeWord_append]

theorem readLexeme_path {c : Char} {cs rest : List Char} {segments : List String}
    (h : readLexeme c cs = .ok (.path segments, rest)) :
    Path.Written segments ∧ c :: cs = (String.intercalate "." segments).toList ++ rest := by
  unfold readLexeme at h
  split at h
  case h_13 =>
    split at h
    · exact (readNumber_ne_path h).elim
    · split at h
      · next hc => exact readWord_eq_ok hc h
      · repeat' split at h
        all_goals cases h
  case h_11 => exact (readTextBody_ne_path h).elim
  case h_12 => exact (readTextBody_ne_path h).elim
  all_goals cases h

/-! ## Reading a text literal -/

theorem readTextBody_quote {quote : Char} {offset : Nat} {done rest : List Char} :
    readTextBody quote offset done (quote :: rest) =
      .ok (.text (String.ofList done.reverse), rest) := by
  rw [readTextBody.eq_def]
  dsimp only
  rw [if_pos rfl]

theorem readTextBody_cons {quote c : Char} {offset : Nat} {done rest : List Char}
    (hc : c ≠ quote) (hslash : c ≠ '\\') :
    readTextBody quote offset done (c :: rest) =
      readTextBody quote (offset + c.utf8Size) (c :: done) rest := by
  rw [readTextBody.eq_def]
  dsimp only
  rw [if_neg hc, if_neg hslash]

/-- The character that an escape stands for, by the character behind the backslash. -/
def escaped? : Char → Option Char
  | '\\' => some '\\'
  | '\'' => some '\''
  | '"' => some '"'
  | 'n' => some '\n'
  | _ => none

theorem readTextBody_escape {quote c d : Char} {offset : Nat} {done rest : List Char}
    (hquote : quote ≠ '\\') (h : escaped? c = some d) :
    readTextBody quote offset done ('\\' :: c :: rest) =
      readTextBody quote (offset + 2) (d :: done) rest := by
  unfold escaped? at h
  split at h
  all_goals cases h
  all_goals rw [readTextBody, if_neg hquote.symm, if_pos rfl]

theorem readTextBody_escape_of_none {quote : Char} {offset : Nat} {done rest : List Char}
    (hquote : quote ≠ '\\') (h : rest.head?.bind escaped? = none) :
    readTextBody quote offset done ('\\' :: rest) = .error ⟨offset, .unsupportedEscape⟩ := by
  rw [readTextBody, if_neg hquote.symm, if_pos rfl]
  all_goals
    rintro more rfl
    cases h

/-! ## Reading a number -/

/-- Whether a character may stand in a number behind its sign. -/
def inNumber (c : Char) : Bool := isDigit c || c == '_' || c == '.'

theorem takeNumber_append (point : Bool) (cs : List Char) :
    (takeNumber point cs).1 ++ (takeNumber point cs).2.2 = cs := by
  fun_induction takeNumber point cs <;> simp_all

theorem inNumber_of_mem_takeNumber {point : Bool} {cs : List Char} :
    ∀ c ∈ (takeNumber point cs).1, inNumber c := by
  fun_induction takeNumber point cs <;> simp_all [inNumber]

/-- The lexeme of a number by its characters, with or without a point among them. -/
def numberOf (point : Bool) (cs : List Char) : Except ConditionFault Lexeme :=
  let (negative, digits) := match cs with
    | '-' :: rest => (true, rest)
    | _ => (false, cs)
  if point then
    let x := decimalValue digits
    .ok (.float (if negative then -x else x))
  else
    let n : Int := if negative then -(digitsValue digits) else digitsValue digits
    if -9223372036854775808 ≤ n ∧ n ≤ 9223372036854775807 then .ok (.int n)
    else .error .integerOutOfRange

/-- A number is read from its sign and the characters behind it. -/
theorem readNumber_eq {sign body taken rest : List Char} {point : Bool}
    (hsign : sign = ['-'] ∨ sign = [] ∧ body.head? ≠ some '-')
    (hbody : takeNumber false body = (taken, point, rest)) :
    readNumber (sign ++ body) =
      if rest.head?.any (fun c => isLetter c || c == '.') then
        .error ⟨(sign ++ taken).length, .malformedNumber⟩
      else
        match numberOf point ((sign ++ taken).filter (· != '_')) with
        | .error fault => .error ⟨0, fault⟩
        | .ok lexeme => .ok (lexeme, rest) := by
  obtain rfl | ⟨rfl, hhead⟩ := hsign
  · rw [List.singleton_append, List.singleton_append, List.filter_cons_of_pos (by decide)]
    simp only [readNumber, hbody, numberOf, if_true, List.length_cons]
    repeat' split
    all_goals simp_all
  · have htaken : '-' ∉ taken.filter (· != '_') := by
      intro h
      have := inNumber_of_mem_takeNumber '-' (by rw [hbody]; exact (List.mem_filter.1 h).1)
      revert this
      decide
    rw [List.nil_append, List.nil_append, readNumber, numberOf]
    · simp only [hbody, Bool.false_eq_true, if_false, Nat.add_zero]
      repeat' split
      all_goals simp_all
    · rintro rest hrest
      exact htaken (by rw [hrest]; exact List.mem_cons_self)
    · rintro rest rfl
      exact hhead rfl

/-! ## Reading a lexeme -/

/-- What a lexeme is by its first character, where this is no sign of its own and no quote. -/
theorem readLexeme_of_ne {c : Char} {rest : List Char} (hopen : c ≠ '(') (hclose : c ≠ ')')
    (hoperator : ¬ (c = '<' ∨ c = '>' ∨ c = '=' ∨ c = '!')) (hquote : ¬ (c = '\'' ∨ c = '"')) :
    readLexeme c rest =
      if isDigit c || (c == '-' && rest.head?.any isDigit) then readNumber (c :: rest)
      else if startsWord c then readWord (c :: rest)
      else if c == '&' || c == '|' then .error ⟨0, .symbolicConnective⟩
      else if c == '[' || c == ']' then .error ⟨0, .indexing⟩
      else if c == '+' || c == '-' || c == '*' || c == '/' || c == '%' then
        .error ⟨0, .arithmetic⟩
      else .error ⟨0, .unexpectedCharacter c⟩ := by
  unfold readLexeme
  split
  all_goals first | rfl | simp_all

end Token

end WorkflowGraph
