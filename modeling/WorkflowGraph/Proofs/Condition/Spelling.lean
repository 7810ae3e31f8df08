import WorkflowGraph.Proofs.Condition.Words
import WorkflowGraph.Proofs.Text

/-!
# Tokens are read back from their text

Every kind of lexeme but the numbers with a point has a fixed text (`Lexeme.Spells`). A text in
which such lexemes stand one behind the other, with blanks and line breaks between them, is split
into just these lexemes, each at the byte at which it starts (`Token.scan_spelled`). A lexeme ends
where the text does or where a separator follows (`Token.Ends`), which is all that its reader has to
know of what follows it (`Lexeme.Spells.read`).
-/

set_option autoImplicit false

namespace WorkflowGraph

/-! ## Spelling -/

/-- The quotes that a text literal can stand in. -/
inductive Quote where
  | single
  | double
  deriving DecidableEq

namespace Quote

/-- The character of a quote. -/
def char : Quote → Char
  | .single => '\''
  | .double => '"'

/-- A character within a text literal: a backslash stands in front of a backslash and of the quote,
and a line feed is written by its escape. -/
def escape (q : Quote) (c : Char) : List Char :=
  if c = '\\' ∨ c = q.char then ['\\', c]
  else if c = '\n' then ['\\', 'n']
  else [c]

/-- A text literal. -/
def literal (q : Quote) (s : String) : String :=
  String.ofList (q.char :: s.toList.flatMap q.escape ++ [q.char])

end Quote

/-- Whether a word is a field name: letters, digits and underscores, and at least one of them. -/
def FieldName (s : String) : Prop := s ≠ "" ∧ s.toList.all fun c => c.isAlphanum || c == '_'

instance (s : String) : Decidable (FieldName s) := inferInstanceAs (Decidable (_ ∧ _))

namespace Lexeme

/-- The words that name no field at the start of a path. -/
def reserved : List String :=
  ["and", "or", "not", "true", "True", "false", "False", "null", "None"]

/-- How lexemes are written. -/
inductive Spells : String → Lexeme → Prop where
  | path {first : String} {rest : List String} (hnames : ∀ s ∈ first :: rest, FieldName s)
    (hdigit : first.toList.head?.any Char.isDigit = false) (hreserved : first ∉ reserved) :
    Spells (String.intercalate "." (first :: rest)) (.path (first :: rest))
  | int {n : Int} (hmin : -9223372036854775808 ≤ n) (hmax : n ≤ 9223372036854775807) :
    Spells (toString n) (.int n)
  | text (q : Quote) (s : String) : Spells (q.literal s) (.text s)
  | bool (b : Bool) : Spells (toString b) (.bool b)
  | null : Spells "null" .null
  | comparison (op : Comparison) : Spells op.symbol (.comparison op)
  | and : Spells "and" .and
  | or : Spells "or" .or
  | not : Spells "not" .not
  | open : Spells "(" .open
  | close : Spells ")" .close

end Lexeme

/-- Space, tab and the characters of line breaks. -/
def blanks : List Char := [' ', '\t', '\n', '\r']

/-- Whether a text is made of spaces, tabs and line breaks. -/
def Blanks (s : String) : Prop := s.toList.all blanks.contains

instance (s : String) : Decidable (Blanks s) :=
  inferInstanceAs (Decidable (s.toList.all blanks.contains = true))

/-- A lexeme as it is written in a text, behind a gap. -/
structure Spelled where
  gap : String
  blanks : Blanks gap
  spelling : String
  lexeme : Lexeme
  spells : lexeme.Spells spelling

namespace Spelled

/-- The text that lexemes and their gaps make up. -/
def text : List Spelled → String
  | [] => ""
  | w :: rest => w.gap ++ w.spelling ++ text rest

/-- The tokens of lexemes whose text starts at a byte offset. -/
def tokens : Nat → List Spelled → List Token
  | _, [] => []
  | p, w :: rest =>
    ⟨w.lexeme, p + w.gap.utf8ByteSize⟩ :: tokens (p + (w.gap ++ w.spelling).utf8ByteSize) rest

end Spelled

namespace Token

/-! ## Where a lexeme ends -/

/-- Whether a lexeme ends in front of a text: there is none, or a separator follows. -/
def Ends (rest : List Char) : Prop := ∀ c ∈ rest.head?, isSeparator c

/-- Whether a text is read as a lexeme from its first character on, with further text behind it. -/
def ReadAs (text : List Char) (lexeme : Lexeme) (rest : List Char) : Prop :=
  ∃ c cs, text = c :: cs ∧ isSeparator c = false ∧ readLexeme c (cs ++ rest) = .ok (lexeme, rest)

variable {c : Char} {cs rest : List Char}

theorem isSeparator_eq (c : Char) : isSeparator c = blanks.contains c := by
  simp only [isSeparator, blanks, List.contains_cons, List.contains_nil, Bool.or_false,
    Bool.or_assoc]

/-- What holds of no separator does not hold of what stands behind a lexeme. -/
theorem Ends.any_head? {f : Char → Bool} (h : Ends rest) (hf : blanks.any f = false) :
    rest.head?.any f = false := by
  cases hrest : rest.head? with
  | none => rfl
  | some c =>
    have hc := h c hrest
    rw [isSeparator_eq, List.contains_iff_mem] at hc
    exact Bool.eq_false_iff.2 (List.any_eq_false.1 hf c hc)

theorem Ends.head?_ne {d : Char} (h : Ends rest) (hd : isSeparator d = false) :
    rest.head? ≠ some d := by
  intro hrest
  rw [h d hrest] at hd
  cases hd

/-- A character of a class without separators is none. -/
theorem isSeparator_of_class {f : Char → Bool} (hc : f c) (hf : blanks.any f = false) :
    isSeparator c = false := by
  rw [Bool.eq_false_iff, isSeparator_eq, Ne, List.contains_iff_mem]
  exact fun hmem => List.any_eq_false.1 hf c hmem hc

/-! ## Words -/

theorem isDigit_eq (c : Char) : isDigit c = c.isDigit := rfl

theorem isLetter_eq (c : Char) : isLetter c = c.isAlpha := by
  show _ = (decide (c.val ≥ 'A'.val ∧ c.val ≤ 'Z'.val) || c.isLower)
  rw [Bool.or_comm, Bool.decide_and]
  rfl

theorem inWord_eq (c : Char) : inWord c = (c.isAlphanum || c == '_') := by
  show _ = (c.isAlpha || c.isDigit || c == '_')
  rw [inWord, startsWord, isLetter_eq, isDigit_eq, Bool.or_right_comm]

theorem startsWord_of_inWord (h : inWord c) (hdigit : c.isDigit = false) : startsWord c := by
  rw [inWord, isDigit_eq, hdigit, Bool.or_false] at h
  exact h

theorem takeWord_eq {word : List Char} (hword : ∀ c ∈ word, inWord c)
    (hrest : rest.head?.any inWord = false) : takeWord (word ++ rest) = (word, rest) := by
  have hnil : rest.takeWhile inWord = [] ∧ rest.dropWhile inWord = rest := by
    cases rest with
    | nil => exact ⟨rfl, rfl⟩
    | cons c cs =>
      have hc : inWord c = false := hrest
      exact ⟨List.takeWhile_cons_of_neg (by simp [hc]), List.dropWhile_cons_of_neg (by simp [hc])⟩
  rw [takeWord, List.takeWhile_append_of_pos hword, List.dropWhile_append_of_pos hword, hnil.1,
    hnil.2, List.append_nil]

/-- A word ends in front of a dot as well. -/
theorem head?_behind_append {more : List String} (hrest : Ends rest) :
    (Path.behind more ++ rest).head?.any inWord = false := by
  cases more with
  | nil => exact hrest.any_head? (by decide)
  | cons second more => rfl

theorem readSegments_behind {fuel offset : Nat} {done more : List String}
    (hfuel : more.length ≤ fuel) (hmore : ∀ s ∈ more, s.toList ≠ [] ∧ ∀ c ∈ s.toList, inWord c)
    (hrest : Ends rest) :
    readSegments fuel offset done (Path.behind more ++ rest) =
      .ok (done.reverse ++ more, rest) := by
  induction more generalizing fuel offset done with
  | nil =>
    rw [List.append_nil]
    exact readSegments_of_head? (hrest.head?_ne (by decide))
  | cons s more ih =>
    obtain ⟨fuel, rfl⟩ := Nat.exists_eq_add_one_of_ne_zero (Nat.ne_of_gt (Nat.zero_lt_of_lt hfuel))
    obtain ⟨⟨hne, hs⟩, hmore⟩ := List.forall_mem_cons.1 hmore
    rw [Path.behind_cons, List.cons_append, List.append_assoc, readSegments,
      takeWord_eq hs (head?_behind_append hrest)]
    dsimp only
    rw [if_neg (by simpa using hne), ih (Nat.le_of_succ_le_succ hfuel) hmore, List.reverse_cons,
      String.ofList_toList, List.append_assoc, List.singleton_append]

theorem readWord_path {first : String} {more : List String}
    (hwords : ∀ s ∈ first :: more, s.toList ≠ [] ∧ ∀ c ∈ s.toList, inWord c)
    (hreserved : keyword? first = none) (hrest : Ends rest) :
    readWord ((String.intercalate "." (first :: more)).toList ++ rest) =
      .ok (.path (first :: more), rest) := by
  obtain ⟨⟨-, hfirst⟩, hmore⟩ := List.forall_mem_cons.1 hwords
  have hlength : more.length ≤ (Path.behind more ++ rest).length := by
    rw [List.length_append]
    exact Nat.le_trans (Path.length_le_behind more) (Nat.le_add_right _ _)
  rw [Path.toList_intercalate, List.append_assoc, readWord,
    takeWord_eq hfirst (head?_behind_append hrest)]
  dsimp only
  rw [String.ofList_toList, hreserved, readSegments_behind hlength hmore hrest]
  rfl

theorem readWord_keyword {word : String} {lexeme : Lexeme} (hword : ∀ c ∈ word.toList, inWord c)
    (hlexeme : keyword? word = some lexeme) (hrest : Ends rest) :
    readWord (word.toList ++ rest) = .ok (lexeme, rest) := by
  rw [readWord, takeWord_eq hword (hrest.any_head? (by decide))]
  dsimp only
  rw [String.ofList_toList, hlexeme]

theorem readLexeme_word (hc : startsWord c) : readLexeme c rest = readWord (c :: rest) := by
  have hdigit : isDigit c = false := by
    rw [Bool.eq_false_iff]
    intro hdigit
    simp only [isDigit, startsWord, isLetter, Bool.or_eq_true, Bool.and_eq_true, beq_iff_eq,
      decide_eq_true_eq, Char.le_def, UInt32.le_iff_toNat_le, Char.reduceVal,
      UInt32.reduceToNat] at hc hdigit
    obtain hc | rfl := hc
    · omega
    · exact absurd hdigit.2 (by decide)
  have hne {d : Char} (hd : startsWord d = false) : c ≠ d := by
    rintro rfl
    rw [hc] at hd
    cases hd
  have hnumber : ¬ (isDigit c || (c == '-' && rest.head?.any isDigit)) := by
    simp [hdigit, hne (d := '-') (by decide)]
  rw [readLexeme_of_ne (hne (by decide)) (hne (by decide)), if_neg hnumber, if_pos hc]
  · rintro (h | h | h | h) <;> exact hne (by decide) h
  · rintro (h | h) <;> exact hne (by decide) h

/-- A word of the language is read as what it stands for. -/
theorem readLexeme_keyword (word : String) {lexeme : Lexeme} (hword : word.toList.all inWord)
    (hstart : word.toList.head?.any startsWord) (hlexeme : keyword? word = some lexeme)
    (hrest : Ends rest) :
    ReadAs word.toList lexeme rest := by
  have hread := readWord_keyword (List.all_eq_true.1 hword) hlexeme hrest
  cases hcs : word.toList with
  | nil =>
    rw [hcs] at hstart
    cases hstart
  | cons c cs =>
    rw [hcs] at hread hstart
    have hc : startsWord c := hstart
    exact ⟨c, cs, rfl, isSeparator_of_class hc (by decide), (readLexeme_word hc).trans hread⟩

/-! ## Numbers -/

theorem takeNumber_digits {digits : List Char} {point : Bool} (hdigits : ∀ c ∈ digits, isDigit c)
    (hrest : Ends rest) : takeNumber point (digits ++ rest) = (digits, point, rest) := by
  induction digits with
  | nil =>
    cases rest with
    | nil => rfl
    | cons c cs =>
      have hnumber : (c :: cs).head?.any inNumber = false := hrest.any_head? (by decide)
      simp only [List.head?_cons, Option.any_some, inNumber, Bool.or_eq_false_iff] at hnumber
      rw [List.nil_append, takeNumber]
      simp [hnumber]
  | cons c digits ih =>
    obtain ⟨hc, hdigits⟩ := List.forall_mem_cons.1 hdigits
    rw [List.cons_append, takeNumber, if_pos (by rw [hc]; rfl), ih hdigits]

theorem digitsValue_toDigits (n : Nat) : digitsValue (Nat.toDigits 10 n) = n := by
  rw [digitsValue, Text.foldl_digits, Nat.ofDigitChars_ten_toDigits]

theorem isDigit_of_mem_toDigits {n : Nat} : ∀ c ∈ Nat.toDigits 10 n, isDigit c :=
  fun _ hc => Nat.isDigit_of_mem_toDigits (by decide) (by decide) hc

theorem readNumber_digits {sign : List Char} {n : Nat} {lexeme : Lexeme}
    (hsign : sign = ['-'] ∨ sign = [])
    (hnumber : numberOf false (sign ++ Nat.toDigits 10 n) = .ok lexeme) (hrest : Ends rest) :
    readNumber (sign ++ Nat.toDigits 10 n ++ rest) = .ok (lexeme, rest) := by
  have hhead : (Nat.toDigits 10 n ++ rest).head? ≠ some '-' := by
    obtain ⟨c, cs, hdigits⟩ := List.exists_cons_of_ne_nil (Nat.toDigits_ne_nil (b := 10) (n := n))
    intro hhead
    rw [hdigits] at hhead
    cases hhead
    have : isDigit '-' = true := isDigit_of_mem_toDigits _ (hdigits ▸ List.mem_cons_self)
    cases this
  have hfilter : (sign ++ Nat.toDigits 10 n).filter (· != '_') = sign ++ Nat.toDigits 10 n := by
    rw [List.filter_eq_self]
    intro c hc
    rw [bne_iff_ne]
    rintro rfl
    obtain hc | hc := List.mem_append.1 hc
    · obtain rfl | rfl := hsign <;> revert hc <;> decide
    · cases isDigit_of_mem_toDigits _ hc
  rw [List.append_assoc, readNumber_eq (hsign.imp_right fun h => ⟨h, hhead⟩)
    (takeNumber_digits isDigit_of_mem_toDigits hrest), hrest.any_head? (by decide),
    if_neg Bool.false_ne_true, hfilter, hnumber]

theorem readLexeme_number (hc : isDigit c ∨ c = '-' ∧ rest.head?.any isDigit) :
    readLexeme c rest = readNumber (c :: rest) := by
  have hnumber : (isDigit c || (c == '-' && rest.head?.any isDigit)) = true := by
    obtain hc | ⟨rfl, hrest⟩ := hc
    · rw [hc, Bool.true_or]
    · rw [hrest]
      rfl
  have hne {d : Char} (hd : isDigit d = false) (hminus : d ≠ '-') : c ≠ d := by
    rintro rfl
    obtain hc | ⟨rfl, -⟩ := hc
    · rw [hc] at hd
      cases hd
    · exact hminus rfl
  rw [readLexeme_of_ne (hne (by decide) (by decide)) (hne (by decide) (by decide)), if_pos hnumber]
  · rintro (h | h | h | h) <;> exact hne (by decide) (by decide) h
  · rintro (h | h) <;> exact hne (by decide) (by decide) h

theorem readLexeme_digits {sign : List Char} {n : Nat} {lexeme : Lexeme}
    (hsign : sign = ['-'] ∨ sign = [])
    (hnumber : numberOf false (sign ++ Nat.toDigits 10 n) = .ok lexeme) (hrest : Ends rest) :
    ReadAs (sign ++ Nat.toDigits 10 n) lexeme rest := by
  have hread := readNumber_digits hsign hnumber hrest
  obtain ⟨d, ds, hdigits⟩ := List.exists_cons_of_ne_nil (Nat.toDigits_ne_nil (b := 10) (n := n))
  have hd : isDigit d := isDigit_of_mem_toDigits d (hdigits ▸ List.mem_cons_self)
  rw [hdigits] at hread ⊢
  obtain rfl | rfl := hsign
  · have hnumber : readLexeme '-' (d :: ds ++ rest) = readNumber ('-' :: (d :: ds ++ rest)) :=
      readLexeme_number (.inr ⟨rfl, hd⟩)
    exact ⟨'-', d :: ds, rfl, by decide, hnumber.trans hread⟩
  · exact ⟨d, ds, rfl, isSeparator_of_class hd (by decide),
      (readLexeme_number (.inl hd)).trans hread⟩

/-- An integer is read with its sign. -/
theorem readLexeme_int {n : Int} (hmin : -9223372036854775808 ≤ n) (hmax : n ≤ 9223372036854775807)
    (hrest : Ends rest) :
    ReadAs (toString n).toList (.int n) rest := by
  have hdigits (m : Nat) : (toString m).toList = Nat.toDigits 10 m := by
    rw [Nat.toString_eq_ofList_toDigits, String.toList_ofList]
  cases n with
  | ofNat m =>
    have htext : (toString (Int.ofNat m)).toList = [] ++ Nat.toDigits 10 m := hdigits m
    rw [htext]
    refine readLexeme_digits (.inr rfl) ?_ hrest
    rw [List.nil_append, numberOf]
    · simp only [Bool.false_eq_true, if_false, digitsValue_toDigits]
      rw [if_pos ⟨hmin, hmax⟩]
      rfl
    · intro digits hminus
      have : isDigit '-' = true := isDigit_of_mem_toDigits _ (hminus ▸ List.mem_cons_self)
      cases this
  | negSucc m =>
    have htext : (toString (Int.negSucc m)).toList = ['-'] ++ Nat.toDigits 10 (m + 1) := by
      show ("-" ++ toString (m + 1)).toList = _
      rw [String.toList_append, hdigits]
      rfl
    rw [htext]
    refine readLexeme_digits (.inl rfl) ?_ hrest
    rw [List.singleton_append, numberOf]
    simp only [Bool.false_eq_true, if_false, if_true, digitsValue_toDigits]
    rw [if_pos ⟨hmin, hmax⟩]
    rfl

/-! ## Text literals -/

/-- The characters of a text are read back from their escapes. By induction on the text. -/
theorem readTextBody_literal {q : Quote} {offset : Nat} {done : List Char} :
    readTextBody q.char offset done (cs.flatMap q.escape ++ q.char :: rest) =
      .ok (.text (String.ofList (done.reverse ++ cs)), rest) := by
  have hquote : q.char ≠ '\\' := by cases q <;> decide
  induction cs generalizing offset done with
  | nil => rw [List.flatMap_nil, List.nil_append, readTextBody_quote, List.append_nil]
  | cons c cs ih =>
    have hdone : done.reverse ++ c :: cs = (c :: done).reverse ++ cs := by
      rw [List.reverse_cons, List.append_assoc, List.singleton_append]
    rw [List.flatMap_cons, List.append_assoc, hdone]
    by_cases hc : c = '\\' ∨ c = q.char
    · have hescaped : escaped? c = some c := by
        obtain rfl | rfl := hc
        · rfl
        · cases q <;> rfl
      rw [Quote.escape, if_pos hc]
      exact (readTextBody_escape hquote hescaped).trans ih
    · rw [Quote.escape, if_neg hc]
      by_cases hline : c = '\n'
      · subst hline
        rw [if_pos rfl]
        exact (readTextBody_escape hquote rfl).trans ih
      · rw [if_neg hline, List.singleton_append,
          readTextBody_cons (fun h => hc (.inr h)) (fun h => hc (.inl h)), ih]

/-! ## Comparisons -/

theorem readLexeme_comparison (op : Comparison) (hrest : Ends rest) :
    ReadAs op.symbol.toList (.comparison op) rest := by
  have hne (more : List Char) : ¬ rest = '=' :: more := by
    rintro rfl
    exact hrest.head?_ne (by decide) rfl
  cases op with
  | lt =>
    refine ⟨'<', [], rfl, by decide, ?_⟩
    rw [List.nil_append, readLexeme]
    exact hne
  | gt =>
    refine ⟨'>', [], rfl, by decide, ?_⟩
    rw [List.nil_append, readLexeme]
    exact hne
  | le => exact ⟨'<', ['='], rfl, by decide, rfl⟩
  | ge => exact ⟨'>', ['='], rfl, by decide, rfl⟩
  | eq => exact ⟨'=', ['='], rfl, by decide, rfl⟩
  | ne => exact ⟨'!', ['='], rfl, by decide, rfl⟩

end Token

/-! ## Lexemes -/

namespace Lexeme

open Token

variable {spelling : String} {lexeme : Lexeme} {rest : List Char}

theorem keyword?_eq_none {word : String} (h : word ∉ reserved) : keyword? word = none := by
  simp only [reserved, List.mem_cons, List.not_mem_nil, or_false, not_or] at h
  unfold keyword?
  split <;> simp_all

/-- **A lexeme is read from its text**, whatever follows, as long as it ends there. -/
theorem Spells.read (h : lexeme.Spells spelling) (hrest : Ends rest) :
    ReadAs spelling.toList lexeme rest := by
  cases h with
  | @path first more hnames hdigit hreserved =>
    have hwords : ∀ s ∈ first :: more, s.toList ≠ [] ∧ ∀ c ∈ s.toList, inWord c := fun s hs =>
      ⟨fun h => (hnames s hs).1 (String.toList_eq_nil_iff.1 h),
        fun c hc => (inWord_eq c).trans (List.all_eq_true.1 (hnames s hs).2 c hc)⟩
    have hread := readWord_path hwords (keyword?_eq_none hreserved) hrest
    obtain ⟨hne, hfirst⟩ := hwords first List.mem_cons_self
    obtain ⟨c, cs, hcs⟩ := List.exists_cons_of_ne_nil hne
    rw [hcs] at hdigit hfirst
    have hstart := startsWord_of_inWord (hfirst c List.mem_cons_self) hdigit
    rw [Path.toList_intercalate, hcs, List.cons_append] at hread ⊢
    exact ⟨c, cs ++ Path.behind more, rfl, isSeparator_of_class hstart (by decide),
      (readLexeme_word hstart).trans hread⟩
  | int hmin hmax => exact readLexeme_int hmin hmax hrest
  | text q s =>
    have hread : readTextBody q.char 1 [] (s.toList.flatMap q.escape ++ q.char :: rest) =
        .ok (.text s, rest) := by
      rw [readTextBody_literal, List.reverse_nil, List.nil_append, String.ofList_toList]
    refine ⟨q.char, s.toList.flatMap q.escape ++ [q.char], String.toList_ofList, ?_, ?_⟩
    · cases q <;> decide
    · rw [List.append_assoc, List.singleton_append, ← hread]
      cases q <;> rfl
  | comparison op => exact readLexeme_comparison op hrest
  | bool b =>
    cases b
    · exact readLexeme_keyword "false" (by decide) (by decide) rfl hrest
    · exact readLexeme_keyword "true" (by decide) (by decide) rfl hrest
  | null => exact readLexeme_keyword "null" (by decide) (by decide) rfl hrest
  | and => exact readLexeme_keyword "and" (by decide) (by decide) rfl hrest
  | or => exact readLexeme_keyword "or" (by decide) (by decide) rfl hrest
  | not => exact readLexeme_keyword "not" (by decide) (by decide) rfl hrest
  | «open» => exact ⟨'(', [], rfl, by decide, rfl⟩
  | close => exact ⟨')', [], rfl, by decide, rfl⟩

end Lexeme

/-! ## Texts -/

namespace Token

variable {fuel p : Nat} {cs rest : List Char}

theorem byteLength_toList (s : String) : byteLength s.toList = s.utf8ByteSize := by
  rw [byteLength_eq, ← String.utf8ByteSize_ofList, String.ofList_toList]

theorem scanFrom_separators {gap : List Char} (hgap : gap.all blanks.contains)
    (hfuel : gap.length ≤ fuel) :
    scanFrom fuel p (gap ++ cs) = scanFrom (fuel - gap.length) (p + byteLength gap) cs := by
  have hsize (c : Char) (hc : blanks.contains c) : c.utf8Size = 1 := by
    have hall : blanks.all (fun c => c.utf8Size == 1) = true := by decide
    exact beq_iff_eq.1 (List.all_eq_true.1 hall c (List.contains_iff_mem.1 hc))
  induction gap generalizing fuel p with
  | nil => rfl
  | cons c gap ih =>
    obtain ⟨hc, hgap⟩ := Bool.and_eq_true_iff.1 hgap
    obtain ⟨fuel, rfl⟩ := Nat.exists_eq_add_one_of_ne_zero (Nat.ne_of_gt (Nat.zero_lt_of_lt hfuel))
    rw [List.cons_append, scanFrom, if_pos ((isSeparator_eq c).trans hc),
      ih hgap (Nat.le_of_succ_le_succ hfuel), byteLength, hsize c hc, List.length_cons,
      Nat.add_sub_add_right, Nat.add_assoc]

/-- A lexeme is taken off the text. -/
theorem scanFrom_spelling {spelling : String} {lexeme : Lexeme} {ts : List Token}
    (h : lexeme.Spells spelling) (hrest : Ends rest)
    (hts : scanFrom fuel (p + spelling.utf8ByteSize) rest = .ok ts) :
    scanFrom (fuel + 1) p (spelling.toList ++ rest) = .ok (⟨lexeme, p⟩ :: ts) := by
  obtain ⟨c, cs, hcs, hseparator, hread⟩ := h.read hrest
  have hwidth : byteLength (c :: (cs ++ rest)) - byteLength rest = spelling.utf8ByteSize := by
    rw [← byteLength_toList, hcs, ← List.cons_append, byteLength_append, Nat.add_sub_cancel]
  rw [hcs, List.cons_append, scanFrom, if_neg (by rw [hseparator]; exact Bool.false_ne_true), hread]
  dsimp only
  rw [hwidth, hts]

/-- A lexeme ends in front of the gap of the next one, and in front of the blanks at the end. -/
theorem ends_text {words : List Spelled} {behind : String} (hbehind : Blanks behind)
    (hgaps : ∀ w ∈ words, w.gap ≠ "") : Ends (Spelled.text words ++ behind).toList := by
  cases words with
  | nil =>
    intro c hc
    rw [Spelled.text, String.empty_append] at hc
    exact (isSeparator_eq c).trans
      (List.all_eq_true.1 hbehind c (List.mem_of_mem_head? hc))
  | cons w rest =>
    obtain ⟨c, cs, hcs⟩ := List.exists_cons_of_ne_nil fun h =>
      hgaps w List.mem_cons_self (String.toList_eq_nil_iff.1 h)
    intro d hd
    rw [Spelled.text, String.toList_append, String.toList_append, String.toList_append, hcs] at hd
    cases hd
    exact (isSeparator_eq c).trans
      (List.all_eq_true.1 w.blanks c (hcs ▸ List.mem_cons_self))

/-- The tokens of a text from an offset on. By induction on the lexemes. -/
theorem scanFrom_text {words : List Spelled} {behind : String} (hbehind : Blanks behind)
    (hgaps : ∀ w ∈ words.tail, w.gap ≠ "")
    (hfuel : (Spelled.text words ++ behind).toList.length ≤ fuel) :
    scanFrom fuel p (Spelled.text words ++ behind).toList = .ok (Spelled.tokens p words) := by
  induction words generalizing fuel p with
  | nil =>
    rw [Spelled.text, String.empty_append] at hfuel ⊢
    rw [← List.append_nil behind.toList, scanFrom_separators hbehind hfuel, scanFrom,
      Spelled.tokens]
  | cons w rest ih =>
    have hrest := ends_text hbehind hgaps
    have htext : (Spelled.text (w :: rest) ++ behind).toList =
        w.gap.toList ++ (w.spelling.toList ++ (Spelled.text rest ++ behind).toList) := by
      simp only [Spelled.text, String.toList_append, List.append_assoc]
    obtain ⟨c, cs, hcs, -, -⟩ := w.spells.read hrest
    rw [htext] at hfuel ⊢
    rw [List.length_append, List.length_append, hcs, List.length_cons] at hfuel
    obtain ⟨left, hleft⟩ : ∃ left, fuel - w.gap.toList.length = left + 1 :=
      Nat.exists_eq_add_one_of_ne_zero (by omega)
    rw [scanFrom_separators w.blanks (by omega), hleft, byteLength_toList, Spelled.tokens]
    refine scanFrom_spelling w.spells hrest ?_
    rw [String.utf8ByteSize_append, ← Nat.add_assoc]
    exact ih (fun v hv => hgaps v (List.mem_of_mem_tail hv)) (by omega)

/-- **The tokens of a text are the lexemes that it is written with.** Lexemes of every kind with a
fixed text, in any order, with gaps of blanks and line breaks between them, are read back, each at
the byte offset at which its text starts. Blanks may also stand in front of the first of them and
behind the last one. -/
theorem scan_spelled (words : List Spelled) (behind : String) (hbehind : Blanks behind)
    (hgaps : ∀ w ∈ words.tail, w.gap ≠ "") :
    scan (Spelled.text words ++ behind) = .ok (Spelled.tokens 0 words) :=
  scanFrom_text hbehind hgaps (Nat.le_refl _)

/-- A path, a comparison and a text with escapes in it, over two lines. -/
def nameWords : List Spelled :=
  [⟨" ", by decide, _, _, .path (by decide : ∀ s ∈ ["state", "name"], FieldName s) (by decide)
      (by decide)⟩,
    ⟨"\t", by decide, _, _, .comparison .ne⟩,
    ⟨"\n ", by decide, _, _, .text .single "é'\n"⟩]

theorem scan_name_words :
    scan " state.name\t!=\n 'é\\'\\n'\r" = .ok [⟨.path ["state", "name"], 1⟩,
      ⟨.comparison .ne, 12⟩, ⟨.text "é'\n", 16⟩] := by
  have htext : Spelled.text nameWords ++ "\r" = " state.name\t!=\n 'é\\'\\n'\r" := by decide
  have hgaps : ∀ w ∈ nameWords.tail, w.gap ≠ "" := by decide
  rw [← htext]
  exact scan_spelled nameWords "\r" (by decide) hgaps

end Token

end WorkflowGraph
