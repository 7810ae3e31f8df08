import WorkflowGraph.Proofs.Condition.Words
import WorkflowGraph.Proofs.Text

/-!
# Tokens read byte by byte

A text is stored in bytes, of which a character takes up one to four. `Cursor.scan` reads the tokens
of a condition with an offset into these bytes: it looks at single bytes ahead, and takes characters
and parts of the text from between two offsets. Such a part exists only between boundaries of
characters (`Cursor.slice?`); where there is none, or where a loop takes more rounds than it may,
reading stops without any result. It never does (`Cursor.scan_eq`): every step leaves the offset at
a boundary (`Cursor.At`), so that the tokens and the fault are those that are read character by
character, and all of them lie at boundaries.
-/

set_option autoImplicit false

namespace WorkflowGraph

namespace Cursor

open Token

/-! ## Reading -/

/-- The byte at an offset, as the character with its number. -/
def peek (s : String) (p : Nat) : Option Char := s.toByteArray[p]?.map fun b => Char.ofNat b.toNat

/-- The part of a text between two offsets, which must be boundaries between characters. -/
def slice? (s : String) (start stop : Nat) : Option String :=
  if start ≤ stop ∧ String.Pos.Raw.isValid s ⟨start⟩ ∧ String.Pos.Raw.isValid s ⟨stop⟩ then
    some (String.Pos.Raw.extract s ⟨start⟩ ⟨stop⟩)
  else none

/-- The first character of the part from an offset on. -/
def char? (s : String) (p : Nat) : Option Char :=
  (slice? s p s.utf8ByteSize).bind fun rest => rest.toList.head?

/-- The offset behind the word at an offset. -/
def wordEnd (s : String) : Nat → Nat → Option Nat
  | 0, _ => none
  | left + 1, p => if (peek s p).any Token.inWord then wordEnd s left (p + 1) else some p

/-- The word at an offset, and the offset behind it. -/
def word (s : String) (rounds p : Nat) : Option (String × Nat) := do
  let stop ← wordEnd s rounds p
  let text ← slice? s p stop
  some (text, stop)

/-- Read the segments of a path after its first one. -/
def segments (s : String) (rounds : Nat) :
    Nat → Nat → List String → Option (Except FaultAt (List String × Nat))
  | 0, _, _ => none
  | left + 1, p, done =>
    if peek s p = some '.' then do
      let (segment, stop) ← word s rounds (p + 1)
      if segment.isEmpty then some (.error ⟨p, .missingSegment⟩)
      else segments s rounds left stop (segment :: done)
    else some (.ok (done.reverse, p))

/-- Read a keyword or a path. -/
def wordLexeme (s : String) (rounds p : Nat) : Option (Except FaultAt (Lexeme × Nat)) := do
  let (first, stop) ← word s rounds p
  match Token.keyword? first with
  | some lexeme => some (.ok (lexeme, stop))
  | none =>
    let found ← segments s rounds rounds stop [first]
    some (found.map fun (names, stop) => (.path names, stop))

/-- Read a text literal after the quote at its start. -/
def textBody (s : String) (quote : Char) (start : Nat) :
    Nat → Nat → List Char → Option (Except FaultAt (Lexeme × Nat))
  | 0, _, _ => none
  | left + 1, p, done =>
    match peek s p with
    | none => some (.error ⟨start, .unterminatedText⟩)
    | some b =>
      if b = quote then some (.ok (.text (String.ofList done.reverse), p + 1))
      else if b = '\\' then
        match (peek s (p + 1)).bind escaped? with
        | some c => textBody s quote start left (p + 2) (c :: done)
        | none => some (.error ⟨p, .unsupportedEscape⟩)
      else do
        let c ← char? s p
        textBody s quote start left (p + c.utf8Size) (c :: done)

/-- The offset behind the digits at an offset, and whether there is a point among them. -/
def numberEnd (s : String) : Nat → Bool → Nat → Option (Bool × Nat)
  | 0, _, _ => none
  | left + 1, point, p =>
    match peek s p with
    | none => some (point, p)
    | some b =>
      if Token.isDigit b || b == '_' then numberEnd s left point (p + 1)
      else if b == '.' && !point && (peek s (p + 1)).any Token.isDigit then
        numberEnd s left true (p + 1)
      else some (point, p)

/-- Read a number, which may have a minus sign. -/
def number (s : String) (rounds p : Nat) : Option (Except FaultAt (Lexeme × Nat)) := do
  let first := if peek s p = some '-' then p + 1 else p
  let (point, stop) ← numberEnd s rounds false first
  if (peek s stop).any (fun b => Token.isLetter b || b == '.') then
    some (.error ⟨stop, .malformedNumber⟩)
  else do
    let text ← slice? s p stop
    match numberOf point (text.toList.filter (· != '_')) with
    | .error fault => some (.error ⟨p, fault⟩)
    | .ok lexeme => some (.ok (lexeme, stop))

/-- Read a comparison. -/
def operator (s : String) (b : Char) (p : Nat) : Option (Except FaultAt (Lexeme × Nat)) :=
  match b, peek s (p + 1) == some '=' with
  | '<', true => some (.ok (.comparison .le, p + 2))
  | '<', false => some (.ok (.comparison .lt, p + 1))
  | '>', true => some (.ok (.comparison .ge, p + 2))
  | '>', false => some (.ok (.comparison .gt, p + 1))
  | '=', true => some (.ok (.comparison .eq, p + 2))
  | '!', true => some (.ok (.comparison .ne, p + 2))
  | '=', false => some (.error ⟨p, .assignment⟩)
  | _, _ => some (.error ⟨p, .exclamation⟩)

/-- Read the lexeme that starts with a byte. -/
def lexeme (s : String) (rounds : Nat) (b : Char) (p : Nat) :
    Option (Except FaultAt (Lexeme × Nat)) :=
  if b = '(' then some (.ok (.open, p + 1))
  else if b = ')' then some (.ok (.close, p + 1))
  else if b = '<' ∨ b = '>' ∨ b = '=' ∨ b = '!' then operator s b p
  else if b = '\'' ∨ b = '"' then textBody s b p rounds (p + 1) []
  else if Token.isDigit b || (b == '-' && (peek s (p + 1)).any Token.isDigit) then
    number s rounds p
  else if Token.startsWord b then wordLexeme s rounds p
  else if b == '&' || b == '|' then some (.error ⟨p, .symbolicConnective⟩)
  else if b == '[' || b == ']' then some (.error ⟨p, .indexing⟩)
  else if b == '+' || b == '-' || b == '*' || b == '/' || b == '%' then
    some (.error ⟨p, .arithmetic⟩)
  else do
    let c ← char? s p
    some (.error ⟨p, .unexpectedCharacter c⟩)

/-- Read the tokens from an offset on. -/
def scanFrom (s : String) (rounds : Nat) : Nat → Nat → Option (Except FaultAt (List Token))
  | 0, _ => none
  | left + 1, p =>
    match peek s p with
    | none => some (.ok [])
    | some b =>
      if Token.isSeparator b then scanFrom s rounds left (p + 1)
      else do
        match ← lexeme s rounds b p with
        | .error e => some (.error e)
        | .ok (lexeme, stop) =>
          match ← scanFrom s rounds left stop with
          | .error e => some (.error e)
          | .ok tokens => some (.ok (⟨lexeme, p⟩ :: tokens))

/-- Read the tokens of a text, in loops of a bounded number of rounds. -/
def scan (rounds : Nat) (s : String) : Option (Except FaultAt (List Token)) :=
  scanFrom s rounds rounds 0

/-! ## Characters and bytes -/

theorem getElem?_toByteArray (bs : List UInt8) (i : Nat) : bs.toByteArray[i]? = bs[i]? := by
  by_cases h : i < bs.length
  · rw [getElem?_pos bs.toByteArray i (by rwa [List.size_toByteArray]), getElem?_pos bs i h,
      List.getElem_toByteArray]
  · rw [getElem?_neg bs.toByteArray i (by rwa [List.size_toByteArray]), getElem?_neg bs i h]

theorem length_encoded (cs : List Char) :
    (cs.flatMap String.utf8EncodeChar).length = byteLength cs := by
  induction cs with
  | nil => rfl
  | cons c rest ih =>
    rw [List.flatMap_cons, List.length_append, String.length_utf8EncodeChar, ih]
    rfl

/-- The first byte of a character, as the character with its number. -/
def lead (c : Char) : Char := Char.ofNat ((String.utf8EncodeChar c).headD 0).toNat

variable {s : String} {p q : Nat} {c : Char} {cs rest : List Char}

theorem lead_of_lt (h : c.toNat < 128) : lead c = c := by
  have hbyte : c.val.toUInt8.toNat = c.toNat := Nat.mod_eq_of_lt (Nat.lt_trans h (by decide))
  rw [lead, String.utf8EncodeChar_eq_singleton (Text.utf8Size_of_lt h), List.headD_cons, hbyte,
    Char.ofNat_toNat]

/-- The bytes of a character that takes up several of them are none of the first 128. -/
theorem le_lead (h : 128 ≤ c.toNat) : 128 ≤ (lead c).toNat := by
  have hv : ¬ c.val.toNat ≤ 127 := Nat.not_le.2 h
  have hbyte (n : Nat) (h : 128 ≤ n % 256) (bs : List UInt8) :
      128 ≤ (Char.ofNat ((UInt8.ofNat n :: bs).headD 0).toNat).toNat := by
    have hvalid : (n % 256).isValidChar := .inl (by omega)
    rw [List.headD_cons, UInt8.toNat_ofNat', Char.ofNat, dif_pos hvalid]
    exact h
  unfold lead String.utf8EncodeChar
  extract_lets v
  have hv : ¬ v ≤ 127 := hv
  rw [if_neg hv]
  split
  · exact hbyte _ (by omega) _
  · split
    · exact hbyte _ (by omega) _
    · exact hbyte _ (by omega) _

theorem lead_eq_iff {k : Char} (hk : k.toNat < 128) : lead c = k ↔ c = k := by
  by_cases hc : c.toNat < 128
  · rw [lead_of_lt hc]
  · have := le_lead (Nat.le_of_not_lt hc)
    constructor <;> rintro rfl <;> omega

/-- A class of characters among the first 128 is seen from the first byte. -/
theorem class_lead {f : Char → Bool} (hf : ∀ c, f c → c.toNat < 128) : f (lead c) = f c := by
  by_cases hc : c.toNat < 128
  · rw [lead_of_lt hc]
  · have hlead := le_lead (Nat.le_of_not_lt hc)
    rw [Bool.eq_false_iff.2 fun h => hc (hf _ h),
      Bool.eq_false_iff.2 fun h => Nat.not_lt.2 hlead (hf _ h)]

theorem lt_of_isDigit (c : Char) (h : isDigit c) : c.toNat < 128 := by
  simp only [isDigit, Bool.and_eq_true, decide_eq_true_eq, Char.le_def, UInt32.le_iff_toNat_le] at h
  exact Nat.lt_of_le_of_lt h.2 (by decide)

theorem lt_of_isLetter (c : Char) (h : isLetter c) : c.toNat < 128 := by
  simp only [isLetter, Bool.or_eq_true, Bool.and_eq_true, decide_eq_true_eq, Char.le_def,
    UInt32.le_iff_toNat_le] at h
  obtain h | h := h
  · exact Nat.lt_of_le_of_lt h.2 (by decide)
  · exact Nat.lt_of_le_of_lt h.2 (by decide)

theorem lt_of_startsWord (c : Char) (h : startsWord c) : c.toNat < 128 := by
  rw [startsWord, Bool.or_eq_true, beq_iff_eq] at h
  obtain h | rfl := h
  · exact lt_of_isLetter c h
  · decide

theorem lt_of_inWord (c : Char) (h : inWord c) : c.toNat < 128 := by
  rw [inWord, Bool.or_eq_true] at h
  exact h.elim (lt_of_startsWord c) (lt_of_isDigit c)

theorem lt_of_isSeparator (c : Char) (h : isSeparator c) : c.toNat < 128 := by
  simp only [isSeparator, Bool.or_eq_true, beq_iff_eq] at h
  obtain ((rfl | rfl) | rfl) | rfl := h <;> decide

/-- Characters among the first 128 take up one byte each. -/
theorem byteLength_of_lt (h : ∀ c ∈ cs, c.toNat < 128) : byteLength cs = cs.length := by
  induction cs with
  | nil => rfl
  | cons c rest ih =>
    rw [byteLength, Text.utf8Size_of_lt (h c (by simp)), ih fun d hd => h d (by simp [hd]),
      List.length_cons, Nat.add_comm]

/-! ## Offsets between characters -/

/-- Whether an offset lies between two characters of a text, of which some are left behind it. -/
def At (s : String) (p : Nat) (cs : List Char) : Prop :=
  ∃ front, s.toList = front ++ cs ∧ byteLength front = p

theorem at_start (s : String) : At s 0 s.toList := ⟨[], rfl, rfl⟩

theorem At.append {taken : List Char} (h : At s p (taken ++ rest)) :
    At s (p + byteLength taken) rest := by
  obtain ⟨front, hs, rfl⟩ := h
  exact ⟨front ++ taken, by rw [hs, List.append_assoc], byteLength_append front taken⟩

theorem At.next (h : At s p (c :: rest)) : At s (p + c.utf8Size) rest := by
  have hat : At s p ([c] ++ rest) := h
  exact hat.append

theorem At.add_byteLength (h : At s p cs) : p + byteLength cs = s.utf8ByteSize := by
  obtain ⟨front, hs, rfl⟩ := h
  rw [← byteLength_append, ← hs, byteLength_eq, ← String.utf8ByteSize_ofList, String.ofList_toList]

theorem At.isValid (h : At s p cs) : String.Pos.Raw.IsValid s ⟨p⟩ := by
  obtain ⟨front, hs, rfl⟩ := h
  rw [String.Pos.Raw.isValid_iff_exists_append]
  refine ⟨String.ofList front, String.ofList cs, ?_, ?_⟩
  · rw [← String.ofList_append, ← hs, String.ofList_toList]
  · rw [byteLength_eq, ← String.utf8ByteSize_ofList]
    rfl

theorem At.length_lt_rounds {rounds : Nat} (h : At s p cs) (hrounds : s.utf8ByteSize < rounds) :
    cs.length < rounds := by
  have := h.add_byteLength
  have := length_le_byteLength cs
  omega

/-- Behind a later offset fewer characters are left. -/
theorem At.length_lt (h : At s p cs) (h' : At s q rest) (hpq : p < q) :
    rest.length < cs.length := by
  obtain ⟨front, hs, rfl⟩ := h
  obtain ⟨front', hs', rfl⟩ := h'
  obtain ⟨between, rfl, rfl⟩ | ⟨between, rfl, rfl⟩ :=
    List.append_eq_append_iff.1 (hs.symm.trans hs')
  · rw [byteLength_append] at hpq
    have hne : between ≠ [] := by
      rintro rfl
      exact Nat.lt_irrefl _ hpq
    have := List.length_pos_iff.2 hne
    rw [List.length_append]
    omega
  · rw [byteLength_append] at hpq
    omega

theorem At.peek_eq (h : At s p cs) : peek s p = cs.head?.map lead := by
  obtain ⟨front, hs, rfl⟩ := h
  rw [peek, Text.toByteArray_eq, hs, getElem?_toByteArray, List.flatMap_append, ← length_encoded,
    List.getElem?_append_right (Nat.le_refl _), Nat.sub_self]
  cases cs with
  | nil => rfl
  | cons c rest =>
    rw [List.flatMap_cons, List.head?_cons, Option.map_some, lead, List.getElem?_append_left]
    · rw [← List.head?_eq_getElem?]
      cases hc : String.utf8EncodeChar c with
      | nil => exact absurd hc String.utf8EncodeChar_ne_nil
      | cons b bs => rfl
    · rw [String.length_utf8EncodeChar]
      exact c.utf8Size_pos

/-- The part of a text between two characters of it exists. -/
theorem At.slice?_eq {taken : List Char} (h : At s p (taken ++ rest)) :
    slice? s p (p + byteLength taken) = some (String.ofList taken) := by
  have hstart := h.isValid
  have hstop := h.append.isValid
  obtain ⟨front, hs, rfl⟩ := h
  rw [slice?, if_pos ⟨Nat.le_add_right _ _, by simpa using hstart, by simpa using hstop⟩]
  have hextract := String.extract_of_valid front taken rest
  rw [List.append_assoc, ← hs, String.ofList_toList, ← byteLength_eq, ← byteLength_eq] at hextract
  rw [hextract]

theorem At.char?_eq (h : At s p (c :: rest)) : char? s p = some c := by
  have hat : At s p (c :: rest ++ []) := by rwa [List.append_nil]
  have hslice := hat.slice?_eq
  rw [h.add_byteLength] at hslice
  rw [char?, hslice, Option.bind_some, String.toList_ofList, List.head?_cons]

theorem At.peek_nil (h : At s p []) : peek s p = none := h.peek_eq

theorem At.peek_cons (h : At s p (c :: rest)) : peek s p = some (lead c) := h.peek_eq

theorem At.peek_any {f : Char → Bool} (h : At s p cs) (hf : ∀ c, f c → c.toNat < 128) :
    (peek s p).any f = cs.head?.any f := by
  cases cs with
  | nil => rw [h.peek_nil]; rfl
  | cons c rest => rw [h.peek_cons, Option.any_some, class_lead hf]; rfl

theorem At.peek_eq_some_iff {k : Char} (h : At s p cs) (hk : k.toNat < 128) :
    peek s p = some k ↔ cs.head? = some k := by
  cases cs with
  | nil => simp [h.peek_nil]
  | cons c rest => simp [h.peek_cons, lead_eq_iff hk]

theorem At.add_one (h : At s p (c :: rest)) (hc : c.toNat < 128) : At s (p + 1) rest := by
  rw [← Text.utf8Size_of_lt hc]
  exact h.next

/-! ## Steps -/

/-- Whether a step over the bytes comes to what reading the characters comes to: to a fault that
many bytes behind the start of the lexeme, or to a result, behind which the same characters are
left. -/
def Agrees {α : Type} (s : String) (start : Nat) (r : Except FaultAt (α × List Char))
    (o : Option (Except FaultAt (α × Nat))) : Prop :=
  match r with
  | .error e =>
    String.Pos.Raw.IsValid s ⟨start + e.position⟩ ∧ o = some (.error ⟨start + e.position, e.fault⟩)
  | .ok (a, rest) => ∃ stop, start < stop ∧ At s stop rest ∧ o = some (.ok (a, stop))

variable {α : Type} {start rounds left fuel offset : Nat}

theorem agrees_ok {a : α} (h : At s p rest) (hp : start < p) :
    Agrees s start (.ok (a, rest)) (some (.ok (a, p))) :=
  ⟨p, hp, h, rfl⟩

theorem agrees_error {e : FaultAt} (h : At s (start + e.position) cs) :
    Agrees s start (.error e : Except FaultAt (α × List Char))
      (some (.error ⟨start + e.position, e.fault⟩)) :=
  ⟨h.isValid, rfl⟩

theorem Agrees.map {β : Type} {f : α → β} {r : Except FaultAt (α × List Char)}
    {o : Option (Except FaultAt (α × Nat))} (h : Agrees s start r o) :
    Agrees s start (r >>= fun (a, rest) => .ok (f a, rest))
      (o.bind fun found => some (found.map fun (a, stop) => (f a, stop))) := by
  cases r with
  | error e =>
    obtain ⟨hvalid, rfl⟩ := h
    exact ⟨hvalid, rfl⟩
  | ok found =>
    obtain ⟨stop, hstop, hat, rfl⟩ := h
    exact ⟨stop, hstop, hat, rfl⟩

theorem wordEnd_eq (h : At s p cs) (hleft : cs.length < left) :
    wordEnd s left p = some (p + (takeWord cs).1.length) := by
  induction left generalizing p cs with
  | zero => exact absurd hleft (Nat.not_lt_zero _)
  | succ left ih =>
    unfold wordEnd
    cases cs with
    | nil =>
      rw [h.peek_nil]
      rfl
    | cons c rest =>
      rw [h.peek_cons, Option.any_some, class_lead lt_of_inWord]
      by_cases hc : inWord c
      · rw [if_pos hc, ih (h.add_one (lt_of_inWord c hc)) (by simpa using hleft), takeWord,
          takeWord, List.takeWhile_cons_of_pos hc, List.length_cons]
        simp only [Nat.add_assoc, Nat.add_comm 1]
      · rw [if_neg hc, takeWord, List.takeWhile_cons_of_neg hc]
        rfl

theorem byteLength_takeWord (cs : List Char) :
    byteLength (takeWord cs).1 = (takeWord cs).1.length :=
  byteLength_of_lt fun c hc => lt_of_inWord c (inWord_of_mem_takeWord c hc)

theorem At.takeWord (h : At s p cs) : At s (p + (takeWord cs).1.length) (takeWord cs).2 := by
  rw [← takeWord_append cs] at h
  rw [← byteLength_takeWord]
  exact h.append

theorem word_eq (h : At s p cs) (hrounds : s.utf8ByteSize < rounds) :
    word s rounds p = some (String.ofList (takeWord cs).1, p + (Token.takeWord cs).1.length) := by
  have hat : At s p ((Token.takeWord cs).1 ++ (Token.takeWord cs).2) := by rwa [takeWord_append]
  have hslice := hat.slice?_eq
  rw [byteLength_takeWord] at hslice
  simp only [word, wordEnd_eq h (h.length_lt_rounds hrounds), Option.bind_eq_bind,
    Option.bind_some, hslice]

theorem segments_agrees {done : List String} (h : At s p cs) (hoffset : start + offset = p)
    (hp : start < p) (hrounds : s.utf8ByteSize < rounds) (hfuel : cs.length ≤ fuel)
    (hleft : cs.length < left) :
    Agrees s start (readSegments fuel offset done cs) (segments s rounds left p done) := by
  induction left generalizing p cs fuel offset done with
  | zero => exact absurd hleft (Nat.not_lt_zero _)
  | succ left ih =>
    unfold segments
    by_cases hdot : cs.head? = some '.'
    · obtain ⟨rest, rfl⟩ := List.head?_eq_some_iff.1 hdot
      obtain ⟨fuel, rfl⟩ :=
        Nat.exists_eq_add_one_of_ne_zero (Nat.ne_of_gt (Nat.zero_lt_of_lt hfuel))
      have hnext := h.add_one (by decide)
      have hafter := hnext.takeWord
      have hshorter := h.length_lt hafter (by omega)
      have hempty (word : List Char) : (String.ofList word).isEmpty = word.isEmpty := by
        rw [Bool.eq_iff_iff, String.isEmpty_iff, String.ofList_eq_empty_iff, List.isEmpty_iff]
      rw [if_pos ((h.peek_eq_some_iff (by decide)).2 hdot), word_eq hnext hrounds, readSegments]
      simp only [Option.bind_eq_bind, Option.bind_some, hempty]
      split
      · subst hoffset
        exact agrees_error (e := ⟨offset, _⟩) h
      · exact ih hafter (by omega) (by omega) (by omega) (by omega)
    · rw [if_neg (mt (h.peek_eq_some_iff (by decide)).1 hdot), readSegments_of_head? hdot]
      exact agrees_ok h hp

theorem length_takeWord_pos (hc : startsWord c) : 0 < (takeWord (c :: rest)).1.length := by
  rw [takeWord, List.takeWhile_cons_of_pos (by rw [inWord, hc]; rfl)]
  exact Nat.succ_pos _

theorem wordLexeme_agrees (h : At s p (c :: rest)) (hc : startsWord c)
    (hrounds : s.utf8ByteSize < rounds) :
    Agrees s p (readWord (c :: rest)) (wordLexeme s rounds p) := by
  have hafter := h.takeWord
  have hpos : 0 < (takeWord (c :: rest)).1.length := length_takeWord_pos hc
  unfold readWord wordLexeme
  rw [word_eq h hrounds]
  simp only [Option.bind_eq_bind, Option.bind_some]
  cases keyword? (String.ofList (takeWord (c :: rest)).1) with
  | some lexeme => exact agrees_ok hafter (by omega)
  | none =>
    exact (segments_agrees hafter rfl (by omega) hrounds (Nat.le_refl _)
      (hafter.length_lt_rounds hrounds)).map

theorem lt_of_escaped? {d : Char} (h : escaped? c = some d) : c.toNat < 128 := by
  unfold escaped? at h
  split at h
  all_goals first | decide | cases h

theorem At.escaped?_peek (h : At s p cs) : (peek s p).bind escaped? = cs.head?.bind escaped? := by
  cases cs with
  | nil =>
    rw [h.peek_nil]
    rfl
  | cons c rest =>
    rw [h.peek_cons, List.head?_cons, Option.bind_some, Option.bind_some]
    by_cases hc : c.toNat < 128
    · rw [lead_of_lt hc]
    · have hlead := le_lead (Nat.le_of_not_lt hc)
      rw [Option.eq_none_iff_forall_not_mem.2 fun d hd => hc (lt_of_escaped? hd),
        Option.eq_none_iff_forall_not_mem.2 fun d hd => Nat.not_lt.2 hlead (lt_of_escaped? hd)]

theorem textBody_agrees {quote : Char} {done : List Char} (h : At s p cs)
    (hstart : String.Pos.Raw.IsValid s ⟨start⟩) (hquote : quote.toNat < 128)
    (hne : quote ≠ '\\') (hoffset : start + offset = p) (hp : start < p)
    (hleft : cs.length < left) :
    Agrees s start (readTextBody quote offset done cs) (textBody s quote start left p done) := by
  induction left generalizing p cs offset done with
  | zero => exact absurd hleft (Nat.not_lt_zero _)
  | succ left ih =>
    subst hoffset
    unfold textBody
    cases cs with
    | nil =>
      rw [h.peek_nil, readTextBody]
      exact ⟨hstart, rfl⟩
    | cons c rest =>
      rw [h.peek_cons]
      dsimp only
      by_cases hc : c = quote
      · subst hc
        rw [if_pos (lead_of_lt hquote), readTextBody_quote]
        exact agrees_ok (h.add_one hquote) (by omega)
      rw [if_neg (mt (lead_eq_iff hquote).1 hc)]
      by_cases hslash : c = '\\'
      · subst hslash
        have hnext := h.add_one (by decide)
        rw [if_pos (lead_of_lt (by decide)), hnext.escaped?_peek]
        cases hescaped : rest.head?.bind escaped? with
        | none =>
          rw [readTextBody_escape_of_none hne hescaped]
          exact agrees_error (e := ⟨offset, _⟩) h
        | some d =>
          obtain ⟨e, he, hd⟩ := Option.bind_eq_some_iff.1 hescaped
          obtain ⟨more, rfl⟩ := List.head?_eq_some_iff.1 he
          rw [readTextBody_escape hne hd]
          have hmore := hnext.add_one (lt_of_escaped? hd)
          exact ih hmore (by omega) (by omega) (by simp at hleft; omega)
      · rw [if_neg (mt (lead_eq_iff (by decide)).1 hslash), h.char?_eq,
          readTextBody_cons hc hslash]
        have := c.utf8Size_pos
        exact ih h.next (Nat.add_assoc _ _ _).symm (by omega) (by simpa using hleft)

theorem lt_of_inNumber (c : Char) (h : inNumber c) : c.toNat < 128 := by
  simp only [inNumber, Bool.or_eq_true, beq_iff_eq] at h
  obtain (h | rfl) | rfl := h
  · exact lt_of_isDigit c h
  · decide
  · decide

theorem byteLength_takeNumber (point : Bool) (cs : List Char) :
    byteLength (takeNumber point cs).1 = (takeNumber point cs).1.length :=
  byteLength_of_lt fun c hc => lt_of_inNumber c (inNumber_of_mem_takeNumber c hc)

theorem numberEnd_eq {point : Bool} (h : At s p cs) (hleft : cs.length < left) :
    numberEnd s left point p =
      some ((takeNumber point cs).2.1, p + (takeNumber point cs).1.length) := by
  induction left generalizing p cs point with
  | zero => exact absurd hleft (Nat.not_lt_zero _)
  | succ left ih =>
    unfold numberEnd
    cases cs with
    | nil =>
      rw [h.peek_nil]
      rfl
    | cons c rest =>
      rw [h.peek_cons, takeNumber.eq_def]
      dsimp only
      by_cases hc : c.toNat < 128
      · have hnext := h.add_one hc
        have hlength (n : Nat) : p + 1 + n = p + (n + 1) := by omega
        rw [lead_of_lt hc, hnext.peek_any lt_of_isDigit]
        split
        · rw [ih hnext (by simpa using hleft), List.length_cons, hlength]
        · split
          · rw [ih hnext (by simpa using hleft), List.length_cons, hlength]
          · rfl
      · have hdigit : isDigit c = false := Bool.eq_false_iff.2 fun h => hc (lt_of_isDigit c h)
        have hne {k : Char} (hk : k.toNat < 128) : c ≠ k := by
          rintro rfl
          exact hc hk
        have hlead {k : Char} (hk : k.toNat < 128) : lead c ≠ k := mt (lead_eq_iff hk).1 (hne hk)
        simp [class_lead lt_of_isDigit, hdigit, hne, hlead]

theorem number_agrees (sign body : List Char) (h : At s p (sign ++ body))
    (hsign : sign = ['-'] ∨ sign = [] ∧ body.head? ≠ some '-')
    (hpos : 0 < (sign ++ (takeNumber false body).1).length) (hrounds : s.utf8ByteSize < rounds) :
    Agrees s p (readNumber (sign ++ body)) (number s rounds p) := by
  obtain ⟨⟨taken, point, rest⟩, hbody⟩ : ∃ found, takeNumber false body = found := ⟨_, rfl⟩
  have hfirst : (if peek s p = some '-' then p + 1 else p) = p + sign.length := by
    obtain rfl | ⟨rfl, hhead⟩ := hsign
    · rw [if_pos ((h.peek_eq_some_iff (by decide)).2 rfl)]
      rfl
    · rw [if_neg (mt (h.peek_eq_some_iff (by decide)).1 hhead)]
      rfl
  have hascii : ∀ c ∈ sign, c.toNat < 128 := by
    obtain rfl | ⟨rfl, -⟩ := hsign
    · exact List.forall_mem_singleton.2 (by decide)
    · exact List.forall_mem_nil _
  have hat : At s (p + sign.length) body := by
    rw [← byteLength_of_lt hascii]
    exact h.append
  have happend := takeNumber_append false body
  have hlength := byteLength_takeNumber false body
  have hend : numberEnd s rounds false (p + sign.length) = _ :=
    numberEnd_eq hat (hat.length_lt_rounds hrounds)
  rw [hbody] at happend hlength hend hpos
  dsimp only at happend hlength hend hpos
  have hwidth : byteLength (sign ++ taken) = (sign ++ taken).length := by
    rw [byteLength_append, byteLength_of_lt hascii, hlength, List.length_append]
  have hstop : p + sign.length + taken.length = p + byteLength (sign ++ taken) := by
    rw [hwidth, List.length_append, Nat.add_assoc]
  rw [← happend, ← List.append_assoc] at h
  rw [readNumber_eq hsign hbody, number]
  simp only [hfirst, hend, hstop, Option.bind_eq_bind, Option.bind_some, h.slice?_eq,
    String.toList_ofList]
  rw [h.append.peek_any fun c hc => ?_]
  · split
    · rw [hwidth]
      exact agrees_error (e := ⟨(sign ++ taken).length, _⟩) (hwidth ▸ h.append)
    · cases numberOf point ((sign ++ taken).filter (· != '_')) with
      | error fault => exact agrees_error (e := ⟨0, fault⟩) h
      | ok lexeme => exact agrees_ok h.append (by rw [hwidth]; omega)
  · rw [Bool.or_eq_true, beq_iff_eq] at hc
    obtain hc | rfl := hc
    · exact lt_of_isLetter c hc
    · decide

theorem operator_agrees (h : At s p (c :: rest)) (hc : c = '<' ∨ c = '>' ∨ c = '=' ∨ c = '!') :
    Agrees s p (readLexeme c rest) (operator s c p) := by
  have hnext : At s (p + 1) rest := h.add_one (by obtain rfl | rfl | rfl | rfl := hc <;> decide)
  have hpeek := hnext.peek_eq_some_iff (k := '=') (by decide)
  unfold operator
  by_cases heq : rest.head? = some '='
  · obtain ⟨more, rfl⟩ := List.head?_eq_some_iff.1 heq
    have hmore : At s (p + 2) more := hnext.add_one (by decide)
    rw [beq_iff_eq.2 (hpeek.2 heq)]
    obtain rfl | rfl | rfl | rfl := hc <;> exact agrees_ok hmore (by omega)
  · have hne (more : List Char) : ¬ rest = '=' :: more := by
      rintro rfl
      exact heq rfl
    rw [beq_eq_false_iff_ne.2 (mt hpeek.1 heq)]
    obtain rfl | rfl | rfl | rfl := hc <;> rw [readLexeme]
    case inl => exact agrees_ok hnext (Nat.lt_succ_self p)
    case inr.inl => exact agrees_ok hnext (Nat.lt_succ_self p)
    case inr.inr.inl => exact agrees_error (e := ⟨0, _⟩) h
    case inr.inr.inr => exact agrees_error (e := ⟨0, _⟩) h
    all_goals exact hne

/-- Text that starts with a character of several bytes is no lexeme. -/
theorem lexeme_agrees_of_le (h : At s p (c :: rest)) (hc : 128 ≤ c.toNat) :
    Agrees s p (readLexeme c rest) (lexeme s rounds (lead c) p) := by
  have hne {k : Char} (hk : k.toNat < 128) : c ≠ k := by
    rintro rfl
    omega
  have hlead {k : Char} (hk : k.toNat < 128) : lead c ≠ k := mt (lead_eq_iff hk).1 (hne hk)
  have hdigit : isDigit c = false := Bool.eq_false_iff.2 fun h => by
    have := lt_of_isDigit c h
    omega
  have hstarts : startsWord c = false := Bool.eq_false_iff.2 fun h => by
    have := lt_of_startsWord c h
    omega
  have hread : readLexeme c rest = .error ⟨0, .unexpectedCharacter c⟩ := by
    rw [readLexeme_of_ne] <;> simp [hne, hdigit, hstarts]
  have hlexeme : lexeme s rounds (lead c) p = some (.error ⟨p, .unexpectedCharacter c⟩) := by
    simp [lexeme, hlead, class_lead lt_of_isDigit, class_lead lt_of_startsWord, hdigit, hstarts,
      h.char?_eq]
  rw [hread, hlexeme]
  exact agrees_error (e := ⟨0, _⟩) h

theorem lexeme_agrees (h : At s p (c :: rest)) (hrounds : s.utf8ByteSize < rounds) :
    Agrees s p (readLexeme c rest) (lexeme s rounds (lead c) p) := by
  obtain hc | hc := Nat.lt_or_ge c.toNat 128
  case inr => exact lexeme_agrees_of_le h hc
  have hnext := h.add_one hc
  have hrefuse (fault : ConditionFault) :
      Agrees s p (.error ⟨0, fault⟩ : Token.Read) (some (.error ⟨p, fault⟩)) :=
    agrees_error (e := ⟨0, _⟩) h
  rw [lead_of_lt hc]
  unfold lexeme
  by_cases hopen : c = '('
  · subst hopen
    exact agrees_ok hnext (Nat.lt_succ_self p)
  by_cases hclose : c = ')'
  · subst hclose
    exact agrees_ok hnext (Nat.lt_succ_self p)
  by_cases hoperator : c = '<' ∨ c = '>' ∨ c = '=' ∨ c = '!'
  · rw [if_neg hopen, if_neg hclose, if_pos hoperator]
    exact operator_agrees h hoperator
  by_cases hquote : c = '\'' ∨ c = '"'
  · rw [if_neg hopen, if_neg hclose, if_neg hoperator, if_pos hquote]
    have hbody : Agrees s p (readTextBody c 1 [] rest) (textBody s c p rounds (p + 1) []) :=
      textBody_agrees hnext h.isValid hc (by obtain rfl | rfl := hquote <;> decide) rfl
        (Nat.lt_succ_self p) (hnext.length_lt_rounds hrounds)
    obtain rfl | rfl := hquote <;> exact hbody
  rw [if_neg hopen, if_neg hclose, if_neg hoperator, if_neg hquote,
    readLexeme_of_ne hopen hclose hoperator hquote, hnext.peek_any lt_of_isDigit]
  by_cases hnumber : isDigit c || (c == '-' && rest.head?.any isDigit)
  · rw [if_pos hnumber, if_pos hnumber]
    rw [Bool.or_eq_true, Bool.and_eq_true, beq_iff_eq] at hnumber
    obtain hdigit | ⟨rfl, -⟩ := hnumber
    · have hsign : c ≠ '-' := by
        rintro rfl
        revert hdigit
        decide
      refine number_agrees [] (c :: rest) h
        (.inr ⟨rfl, fun heq => hsign (Option.some.inj heq)⟩) ?_ hrounds
      rw [takeNumber.eq_def]
      simp [hdigit]
    · exact number_agrees ['-'] rest h (.inl rfl) (Nat.succ_pos _) hrounds
  rw [if_neg hnumber, if_neg hnumber]
  by_cases hword : startsWord c
  · rw [if_pos hword, if_pos hword]
    exact wordLexeme_agrees h hword hrounds
  rw [if_neg hword, if_neg hword, h.char?_eq]
  -- what is left is refused for the same reason on either side
  repeat' split
  all_goals exact hrefuse _

/-- Whether a token starts at a character of a text, at the offset or behind it. -/
def StartsIn (s : String) (p : Nat) (t : Token) : Prop :=
  p ≤ t.position ∧ ∃ c rest, At s t.position (c :: rest)

/-- Whether tokens start at characters of a text, each behind the one before it, and whether a fault
lies between characters. -/
def Located (s : String) (p : Nat) (r : Except FaultAt (List Token)) : Prop :=
  match r with
  | .error e => String.Pos.Raw.IsValid s ⟨e.position⟩
  | .ok ts => (∀ t ∈ ts, StartsIn s p t) ∧ ts.Pairwise fun t u => t.position < u.position

theorem Located.mono {r : Except FaultAt (List Token)} (h : Located s q r) (hpq : p ≤ q) :
    Located s p r := by
  cases r with
  | error e => exact h
  | ok ts => exact ⟨fun t ht => ⟨Nat.le_trans hpq (h.1 t ht).1, (h.1 t ht).2⟩, h.2⟩

/-- Reading goes on, in enough rounds, to what reading the characters comes to. By induction on the
rounds; every one of them leaves fewer characters. -/
theorem scanFrom_eq (h : At s p cs) (hrounds : s.utf8ByteSize < rounds) (hfuel : cs.length ≤ fuel)
    (hleft : cs.length < left) :
    scanFrom s rounds left p = some (Token.scanFrom fuel p cs) ∧
      Located s p (Token.scanFrom fuel p cs) := by
  induction left generalizing p cs fuel with
  | zero => exact absurd hleft (Nat.not_lt_zero _)
  | succ left ih =>
    unfold scanFrom
    cases cs with
    | nil =>
      rw [h.peek_nil, Token.scanFrom]
      exact ⟨rfl, by simp, .nil⟩
    | cons c rest =>
      obtain ⟨fuel, rfl⟩ :=
        Nat.exists_eq_add_one_of_ne_zero (Nat.ne_of_gt (Nat.zero_lt_of_lt hfuel))
      rw [h.peek_cons, Token.scanFrom]
      dsimp only
      rw [class_lead lt_of_isSeparator]
      by_cases hseparator : isSeparator c
      · rw [if_pos hseparator, if_pos hseparator]
        have hnext := h.add_one (lt_of_isSeparator c hseparator)
        obtain ⟨heq, hlocated⟩ := ih hnext (Nat.le_of_succ_le_succ hfuel)
          (Nat.lt_of_succ_lt_succ hleft)
        exact ⟨heq, hlocated.mono (Nat.le_succ p)⟩
      · rw [if_neg hseparator, if_neg hseparator]
        have hagrees := lexeme_agrees h hrounds
        cases hread : readLexeme c rest with
        | error e =>
          rw [hread] at hagrees
          obtain ⟨hvalid, hlexeme⟩ := hagrees
          rw [hlexeme]
          exact ⟨rfl, hvalid⟩
        | ok found =>
          obtain ⟨lexeme, after⟩ := found
          rw [hread] at hagrees
          obtain ⟨stop, hstop, hat, hlexeme⟩ := hagrees
          have hshorter := h.length_lt hat hstop
          have hwidth : p + (byteLength (c :: rest) - byteLength after) = stop := by
            have := h.add_byteLength
            have := hat.add_byteLength
            omega
          have hfuel : after.length ≤ fuel := by omega
          obtain ⟨heq, hlocated⟩ := ih hat hfuel (by omega)
          rw [hlexeme]
          simp only [hwidth, Option.bind_eq_bind, Option.bind_some, heq]
          cases hscan : Token.scanFrom fuel stop after with
          | error e =>
            rw [hscan] at hlocated
            exact ⟨rfl, hlocated⟩
          | ok ts =>
            rw [hscan] at hlocated
            have hmore := hlocated.mono (Nat.le_of_lt hstop)
            exact ⟨rfl, List.forall_mem_cons.2 ⟨⟨Nat.le_refl p, c, rest, h⟩, hmore.1⟩,
              hlocated.2.cons fun t ht => Nat.lt_of_lt_of_le hstop (hlocated.1 t ht).1⟩

theorem scan_eq {rounds : Nat} (source : String) (hrounds : source.utf8ByteSize < rounds) :
    scan rounds source = some (Token.scan source) :=
  (scanFrom_eq (at_start source) hrounds (Nat.le_refl _)
    ((at_start source).length_lt_rounds hrounds)).1

theorem located_scan (source : String) : Located source 0 (Token.scan source) := by
  have hrounds := Nat.lt_succ_self source.utf8ByteSize
  exact (scanFrom_eq (at_start source) hrounds (Nat.le_refl _)
    ((at_start source).length_lt_rounds hrounds)).2

end Cursor

end WorkflowGraph
