import Mathlib.Data.List.Basic
import WorkflowGraph.Proofs.Condition.Cursor
import WorkflowGraph.Proofs.Text
import WorkflowGraph.Text.Percent

/-!
# Names that are percent-encoded

The name of a text has neither dots nor slashes (`Text.Percent.plain_of_mem_encode`), and no two
texts have one name (`Text.Percent.encode_inj`): what a byte is written with is never the beginning
of what another byte is written with. What is read from the name of a text is this text again
(`Text.Percent.decode?_encode`), and from a name without percent signs the name itself
(`Text.Percent.decode?_of_plain`).

The text of a name is read in a loop over the bytes of the name (`Text.Percent.readRound`). A byte
other than a percent sign is taken as it stands, also where it is part of a longer character. For
the two digits behind a percent sign a part of the name is taken, which exists only between
boundaries of characters (`Cursor.slice?`). The loop ends within as many rounds as the name has
bytes and one more, and what it comes to is the text of the name (`Text.Percent.readName_eq`): a
byte among the first 128 is a whole character (`Cursor.at_of_byte`), so that two bytes which are
digits always are a part of the name.
-/

set_option autoImplicit false

namespace WorkflowGraph.Text.Percent

/-! ## Bytes -/

theorem toNat_ofNat {n : Nat} (h : n < 256) : (Char.ofNat n).toNat = n := by
  have hvalid : n.isValidChar := .inl (by omega)
  rw [Char.ofNat, dif_pos hvalid]
  rfl

theorem isPlain_iff {b : UInt8} :
    isPlain b = true ↔ (48 ≤ b.toNat ∧ b.toNat ≤ 57) ∨ (65 ≤ b.toNat ∧ b.toNat ≤ 90) ∨
      (97 ≤ b.toNat ∧ b.toNat ≤ 122) ∨ b.toNat = 45 ∨ b.toNat = 95 := by
  simp only [isPlain, Bool.or_eq_true, Bool.and_eq_true, decide_eq_true_eq, beq_iff_eq,
    UInt8.le_iff_toNat_le, ← UInt8.toNat_inj, or_assoc]
  exact Iff.rfl

/-- The number of a hexadecimal digit's character. -/
theorem toNat_hexDigit {n : UInt8} (h : n.toNat < 16) :
    (hexDigit n).toNat = if n.toNat < 10 then 48 + n.toNat else 55 + n.toNat := by
  unfold hexDigit
  split
  · next hlt =>
    have hlt : n.toNat < 10 := UInt8.lt_iff_toNat_lt.1 hlt
    rw [toNat_ofNat (by omega), if_pos hlt]
  · next hlt =>
    have hlt : ¬ n.toNat < 10 := fun hlt' => hlt (UInt8.lt_iff_toNat_lt.2 hlt')
    rw [toNat_ofNat (by omega), if_neg hlt]

theorem hexDigit_inj {m n : UInt8} (hm : m.toNat < 16) (hn : n.toNat < 16)
    (h : hexDigit m = hexDigit n) : m.toNat = n.toNat := by
  have hnat := congrArg Char.toNat h
  rw [toNat_hexDigit hm, toNat_hexDigit hn] at hnat
  split at hnat <;> split at hnat <;> omega

theorem toNat_div_lt (b : UInt8) : (b / 16).toNat < 16 := by
  have := b.toNat_lt
  rw [UInt8.toNat_div]
  show b.toNat / 16 < 16
  omega

theorem toNat_mod_lt (b : UInt8) : (b % 16).toNat < 16 := by
  rw [UInt8.toNat_mod]
  exact Nat.mod_lt _ (by decide)

/-- A byte is written with characters of ASCII, without dots and slashes. -/
theorem toNat_of_mem_encodeByte {b : UInt8} {c : Char} (h : c ∈ encodeByte b) :
    c.toNat < 128 ∧ c.toNat ≠ 46 ∧ c.toNat ≠ 47 := by
  unfold encodeByte at h
  split at h
  · next hplain =>
    cases List.mem_singleton.1 h
    rw [toNat_ofNat b.toNat_lt]
    have := isPlain_iff.1 hplain
    omega
  · have hhigh := toNat_hexDigit (toNat_div_lt b)
    have hlow := toNat_hexDigit (toNat_mod_lt b)
    have hdiv := toNat_div_lt b
    have hmod := toNat_mod_lt b
    simp only [List.mem_cons, List.not_mem_nil, or_false] at h
    rcases h with rfl | rfl | rfl
    · decide
    · rw [hhigh]
      split <;> omega
    · rw [hlow]
      split <;> omega

theorem plain_of_mem_encodeByte {b : UInt8} {c : Char} (h : c ∈ encodeByte b) :
    c ≠ '.' ∧ c ≠ '/' := by
  obtain ⟨-, hdot, hslash⟩ := toNat_of_mem_encodeByte h
  refine ⟨?_, ?_⟩
  · rintro rfl
    exact hdot rfl
  · rintro rfl
    exact hslash rfl

/-- What a byte is written with tells the byte, whatever follows. -/
theorem encodeByte_append_inj {a b : UInt8} {more more' : List Char}
    (h : encodeByte a ++ more = encodeByte b ++ more') : a = b ∧ more = more' := by
  have hpercent {n : UInt8} (hn : isPlain n = true) : Char.ofNat n.toNat ≠ '%' := by
    intro heq
    have hnat := congrArg Char.toNat heq
    rw [toNat_ofNat n.toNat_lt] at hnat
    have := isPlain_iff.1 hn
    change n.toNat = 37 at hnat
    omega
  unfold encodeByte at h
  split at h
  · next ha =>
    split at h
    · obtain ⟨hchar, hmore⟩ := List.cons.inj h
      have hnat := congrArg Char.toNat hchar
      rw [toNat_ofNat a.toNat_lt, toNat_ofNat b.toNat_lt] at hnat
      exact ⟨UInt8.toNat_inj.1 hnat, hmore⟩
    · exact absurd (List.cons.inj h).1 (hpercent ha)
  · split at h
    · next hb => exact absurd (List.cons.inj h).1.symm (hpercent hb)
    · obtain ⟨hhigh, h⟩ := List.cons.inj (List.cons.inj h).2
      obtain ⟨hlow, hmore⟩ := List.cons.inj h
      have hdiv := hexDigit_inj (toNat_div_lt a) (toNat_div_lt b) hhigh
      have hmod := hexDigit_inj (toNat_mod_lt a) (toNat_mod_lt b) hlow
      rw [UInt8.toNat_div, UInt8.toNat_div] at hdiv
      rw [UInt8.toNat_mod, UInt8.toNat_mod] at hmod
      change a.toNat / 16 = b.toNat / 16 at hdiv
      change a.toNat % 16 = b.toNat % 16 at hmod
      exact ⟨UInt8.toNat_inj.1 (by omega), hmore⟩

theorem encodeByte_ne_nil (b : UInt8) : encodeByte b ≠ [] := by
  unfold encodeByte
  split
  · exact List.cons_ne_nil _ _
  · exact List.cons_ne_nil _ _

/-- Lists of bytes that are written alike are the same. By induction on both. -/
theorem flatMap_encodeByte_inj {bytes bytes' : List UInt8}
    (h : bytes.flatMap encodeByte = bytes'.flatMap encodeByte) : bytes = bytes' := by
  induction bytes generalizing bytes' with
  | nil =>
    cases bytes' with
    | nil => rfl
    | cons b rest =>
      rw [List.flatMap_nil, List.flatMap_cons] at h
      exact absurd (List.append_eq_nil_iff.1 h.symm).1 (encodeByte_ne_nil b)
  | cons a rest ih =>
    cases bytes' with
    | nil =>
      rw [List.flatMap_nil, List.flatMap_cons] at h
      exact absurd (List.append_eq_nil_iff.1 h).1 (encodeByte_ne_nil a)
    | cons b rest' =>
      rw [List.flatMap_cons, List.flatMap_cons] at h
      obtain ⟨rfl, hrest⟩ := encodeByte_append_inj h
      rw [ih hrest]

/-! ## Texts -/

/-- The bytes are listed from where the loop stands. By induction on the bytes that are left. -/
theorem toList_loop (bytes : ByteArray) (i : Nat) (done : List UInt8) :
    ByteArray.toList.loop bytes i done = done.reverse ++ bytes.data.toList.drop i := by
  induction hleft : bytes.size - i generalizing i done with
  | zero =>
    rw [ByteArray.toList.loop, if_neg (by omega), List.drop_of_length_le, List.append_nil]
    show bytes.size ≤ i
    omega
  | succ left ih =>
    have hlt : i < bytes.size := by omega
    have hdrop : bytes.data.toList.drop i = bytes.get! i :: bytes.data.toList.drop (i + 1) := by
      rw [List.drop_eq_getElem_cons (show i < bytes.data.toList.length from hlt)]
      congr 1
      show _ = bytes.data[i]!
      rw [getElem!_pos bytes.data i hlt]
      rfl
    rw [ByteArray.toList.loop, if_pos hlt, ih (i + 1) _ (by omega), hdrop, List.reverse_cons,
      List.append_assoc]
    rfl

theorem toList_toUTF8 (s : String) : s.toUTF8.toList = s.toByteArray.data.toList := by
  show s.toByteArray.toList = _
  rw [ByteArray.toList, toList_loop]
  rfl

theorem toList_toUTF8_inj {s t : String} (h : s.toUTF8.toList = t.toUTF8.toList) : s = t := by
  rw [toList_toUTF8, toList_toUTF8] at h
  exact String.toByteArray_inj.1 (ByteArray.ext (Array.toList_inj.1 h))

/-- **No two texts have one name.** -/
theorem encode_inj {s t : String} : encode s = encode t ↔ s = t := by
  constructor
  · intro h
    exact toList_toUTF8_inj (flatMap_encodeByte_inj (String.ofList_injective h))
  · exact congrArg encode

theorem encode_empty : encode "" = "" := by
  unfold encode
  rw [show "".toUTF8.toList = [] from ByteArray.toList_empty]
  rfl

theorem encode_eq_empty_iff {s : String} : encode s = "" ↔ s = "" := by
  constructor
  · intro h
    exact encode_inj.1 (h.trans encode_empty.symm)
  · rintro rfl
    exact encode_empty

theorem plain_of_mem_encode {s : String} {c : Char} (h : c ∈ (encode s).toList) :
    c ≠ '.' ∧ c ≠ '/' := by
  rw [encode, String.toList_ofList] at h
  obtain ⟨b, -, hc⟩ := List.mem_flatMap.1 h
  exact plain_of_mem_encodeByte hc

/-! ## Reading -/

/-- The byte of a character that is stored in one. -/
def byteOf (c : Char) : UInt8 := c.val.toUInt8

theorem toNat_byteOf {c : Char} (h : c.toNat < 128) : (byteOf c).toNat = c.toNat :=
  Nat.mod_eq_of_lt (Nat.lt_trans h (by decide))

/-- A text of characters that are stored in one byte each has their bytes. -/
theorem toList_toUTF8_of_lt {s : String} (h : ∀ c ∈ s.toList, c.toNat < 128) :
    s.toUTF8.toList = s.toList.map byteOf := by
  have hbytes : s.toList.flatMap String.utf8EncodeChar = s.toList.map byteOf := by
    rw [List.map_eq_flatMap]
    exact List.flatMap_congr fun c hc => String.utf8EncodeChar_eq_singleton (utf8Size_of_lt (h c hc))
  rw [toList_toUTF8, toByteArray_eq, hbytes, List.data_toByteArray]

/-- The digit of a number is read as this number, and is no plus sign. -/
theorem hexValue?_hexDigit {n : UInt8} (h : n.toNat < 16) :
    hexValue? (byteOf (hexDigit n)) = some n ∧ byteOf (hexDigit n) ≠ 43 := by
  have hdigits : ∀ k : Fin 16,
      hexValue? (byteOf (hexDigit (UInt8.ofNat k))) = some (UInt8.ofNat k) ∧
        byteOf (hexDigit (UInt8.ofNat k)) ≠ 43 := by
    decide
  simpa using hdigits ⟨n.toNat, h⟩

theorem decodeBytes?_cons_of_ne {b : UInt8} (h : b ≠ percentSign) (more : List UInt8) :
    decodeBytes? (b :: more) = (decodeBytes? more).map (b :: ·) := by
  rw [decodeBytes?.eq_def]
  exact if_neg h

/-- What a byte is written with is read as this byte, whatever follows. -/
theorem decodeBytes?_encodeByte (b : UInt8) (more : List UInt8) :
    decodeBytes? ((encodeByte b).map byteOf ++ more) = (decodeBytes? more).map (b :: ·) := by
  unfold encodeByte
  split
  · next hplain =>
    have hplain := isPlain_iff.1 hplain
    have hchar : (Char.ofNat b.toNat).toNat = b.toNat := toNat_ofNat b.toNat_lt
    have hbyte : byteOf (Char.ofNat b.toNat) = b := by
      rw [← UInt8.toNat_inj, toNat_byteOf (by omega), hchar]
    have hne : b ≠ percentSign := by
      rintro rfl
      simp [percentSign] at hplain
    rw [List.map_singleton, hbyte, List.singleton_append, decodeBytes?_cons_of_ne hne]
  · obtain ⟨hhigh, hplus⟩ := hexValue?_hexDigit (toNat_div_lt b)
    obtain ⟨hlow, -⟩ := hexValue?_hexDigit (toNat_mod_lt b)
    have hsum : b / 16 * 16 + b % 16 = b := by
      have := b.toNat_lt
      rw [← UInt8.toNat_inj, UInt8.toNat_add, UInt8.toNat_mul, UInt8.toNat_div, UInt8.toNat_mod]
      show (b.toNat / 16 * 16 % 256 + b.toNat % 16) % 256 = b.toNat
      omega
    have hname : nameByte? (byteOf (hexDigit (b / 16))) (byteOf (hexDigit (b % 16))) = some b := by
      rw [nameByte?, if_neg hplus, hexByte?, hhigh, hlow]
      exact congrArg some hsum
    simp only [List.map_cons, List.map_nil, List.cons_append, List.nil_append]
    rw [decodeBytes?, if_pos (by decide), hname]
    cases decodeBytes? more with
    | none => rfl
    | some bytes => rfl

/-- What bytes are written with is read as these bytes. By induction on the bytes. -/
theorem decodeBytes?_flatMap (bytes : List UInt8) :
    decodeBytes? ((bytes.flatMap encodeByte).map byteOf) = some bytes := by
  induction bytes with
  | nil => rfl
  | cons b rest ih =>
    rw [List.flatMap_cons, List.map_append, decodeBytes?_encodeByte, ih]
    rfl

/-- Bytes without percent signs stand for themselves. -/
theorem decodeBytes?_of_not_mem {bytes : List UInt8} (h : percentSign ∉ bytes) :
    decodeBytes? bytes = some bytes := by
  induction bytes with
  | nil => rfl
  | cons b rest ih =>
    obtain ⟨hb, hrest⟩ := not_or.1 (mt List.mem_cons.2 h)
    rw [decodeBytes?_cons_of_ne (Ne.symm hb), ih hrest]
    rfl

theorem fromUTF8?_toList (s : String) : String.fromUTF8? ⟨s.toUTF8.toList.toArray⟩ = some s := by
  rw [toList_toUTF8, String.fromUTF8?, dif_pos s.isValidUTF8]
  rfl

/-- **The text of a name is the text that has this name.** -/
theorem decode?_encode (s : String) : decode? (encode s) = some s := by
  have hlt : ∀ c ∈ (encode s).toList, c.toNat < 128 := by
    intro c hc
    rw [encode, String.toList_ofList] at hc
    obtain ⟨b, -, hc⟩ := List.mem_flatMap.1 hc
    exact (toNat_of_mem_encodeByte hc).1
  rw [decode?, toList_toUTF8_of_lt hlt, encode, String.toList_ofList, decodeBytes?_flatMap,
    Option.bind_some, fromUTF8?_toList]

/-- **A name without percent signs is a text by itself.** -/
theorem decode?_of_plain {s : String} (h : ∀ c ∈ s.toList, c.toNat < 128 ∧ c ≠ '%') :
    decode? s = some s := by
  have hbytes : percentSign ∉ s.toUTF8.toList := by
    rw [toList_toUTF8_of_lt fun c hc => (h c hc).1, List.mem_map]
    rintro ⟨c, hc, hbyte⟩
    obtain ⟨hlt, hne⟩ := h c hc
    apply hne
    have hnat := congrArg UInt8.toNat hbyte
    rw [toNat_byteOf hlt] at hnat
    exact Char.toNat_inj.1 hnat
  rw [decode?, decodeBytes?_of_not_mem hbytes, Option.bind_some, fromUTF8?_toList]

end WorkflowGraph.Text.Percent

namespace WorkflowGraph.Cursor

open Token Text

/-! ## Bytes and boundaries -/

/-- All bytes of a character behind the first 128 are themselves behind the first 128. -/
theorem le_of_mem_utf8EncodeChar {c : Char} (hc : 128 ≤ c.toNat) {b : UInt8}
    (hb : b ∈ String.utf8EncodeChar c) : 128 ≤ b.toNat := by
  have hv : ¬ c.val.toNat ≤ 127 := Nat.not_le.2 hc
  unfold String.utf8EncodeChar at hb
  extract_lets v at hb
  have hv : ¬ v ≤ 127 := hv
  rw [if_neg hv] at hb
  split_ifs at hb <;> simp only [List.mem_cons, List.not_mem_nil, or_false] at hb
  · rcases hb with rfl | rfl <;> rw [UInt8.toNat_ofNat'] <;> omega
  · rcases hb with rfl | rfl | rfl <;> rw [UInt8.toNat_ofNat'] <;> omega
  · rcases hb with rfl | rfl | rfl | rfl <;> rw [UInt8.toNat_ofNat'] <;> omega

/-- A byte among the first 128 is a whole character. By induction on the characters. -/
theorem exists_of_getElem? {cs : List Char} {p : Nat} {b : UInt8}
    (h : (cs.flatMap String.utf8EncodeChar)[p]? = some b) (hb : b.toNat < 128) :
    ∃ front c rest, cs = front ++ c :: rest ∧ byteLength front = p ∧ c.toNat = b.toNat := by
  induction cs generalizing p with
  | nil => cases h
  | cons c rest ih =>
    rw [List.flatMap_cons] at h
    by_cases hp : p < (String.utf8EncodeChar c).length
    · rw [List.getElem?_append_left hp] at h
      have hc : c.toNat < 128 := by
        by_contra hc
        have := le_of_mem_utf8EncodeChar (Nat.le_of_not_lt hc) (List.mem_of_getElem? h)
        omega
      rw [String.utf8EncodeChar_eq_singleton (utf8Size_of_lt hc)] at h hp
      obtain rfl : p = 0 := Nat.lt_one_iff.1 hp
      refine ⟨[], c, rest, rfl, rfl, ?_⟩
      rw [← Option.some.inj h]
      exact (Percent.toNat_byteOf hc).symm
    · rw [List.getElem?_append_right (Nat.le_of_not_lt hp)] at h
      obtain ⟨front, d, rest', rfl, hfront, hd⟩ := ih h
      refine ⟨c :: front, d, rest', rfl, ?_, hd⟩
      rw [String.length_utf8EncodeChar] at hfront hp
      rw [byteLength, hfront]
      omega

variable {name : String} {p q : Nat} {cs : List Char}

theorem getElem?_bytes (name : String) (p : Nat) :
    name.toByteArray[p]? = (name.toList.flatMap String.utf8EncodeChar)[p]? := by
  rw [toByteArray_eq, getElem?_toByteArray]

theorem at_of_byte {b : UInt8} (h : name.toByteArray[p]? = some b) (hb : b.toNat < 128) :
    ∃ c rest, At name p (c :: rest) ∧ c.toNat < 128 := by
  rw [getElem?_bytes] at h
  obtain ⟨front, c, rest, hname, hfront, hc⟩ := exists_of_getElem? h hb
  exact ⟨c, rest, ⟨front, hname, hfront⟩, hc ▸ hb⟩

/-- Behind a byte among the first 128 there is a boundary. -/
theorem at_behind_byte {b : UInt8} (h : name.toByteArray[p]? = some b) (hb : b.toNat < 128) :
    ∃ cs, At name (p + 1) cs := by
  obtain ⟨c, rest, hat, hc⟩ := at_of_byte h hb
  exact ⟨rest, hat.add_one hc⟩

theorem at_of_isValid (h : String.Pos.Raw.IsValid name ⟨p⟩) : ∃ cs, At name p cs := by
  obtain ⟨front, back, hname, hfront⟩ := String.Pos.Raw.isValid_iff_exists_append.1 h
  refine ⟨back.toList, front.toList, ?_, ?_⟩
  · rw [hname, String.toList_append]
  · rw [byteLength_eq, ← String.utf8ByteSize_ofList, String.ofList_toList]
    exact congrArg String.Pos.Raw.byteIdx hfront.symm

/-- Between two boundaries stand characters. -/
theorem At.between {rest : List Char} (h : At name p cs) (h' : At name q rest)
    (hpq : p ≤ q) : ∃ taken, cs = taken ++ rest ∧ p + byteLength taken = q := by
  obtain ⟨front, hs, rfl⟩ := h
  obtain ⟨front', hs', rfl⟩ := h'
  obtain ⟨taken, rfl, rfl⟩ | ⟨taken, rfl, rfl⟩ :=
    List.append_eq_append_iff.1 (hs.symm.trans hs')
  · exact ⟨taken, rfl, (byteLength_append front taken).symm⟩
  · rw [byteLength_append] at hpq
    cases taken with
    | nil => exact ⟨[], rfl, by simp [byteLength]⟩
    | cons c taken =>
      have := c.utf8Size_pos
      rw [byteLength] at hpq
      omega

theorem At.bytes (h : At name p cs) :
    (name.toList.flatMap String.utf8EncodeChar).drop p = cs.flatMap String.utf8EncodeChar := by
  obtain ⟨front, hs, rfl⟩ := h
  rw [hs, List.flatMap_append, ← length_encoded, List.drop_left]

end WorkflowGraph.Cursor

namespace WorkflowGraph.Text.Percent

open Token Cursor

/-! ## The loop -/

/-- The byte that two digits stand for. Digits that are no two bytes stand for none. -/
def digitsByte? (digits : String) : Option UInt8 :=
  match digits.toUTF8.toList with
  | [first, second] => nameByte? first second
  | _ => none

/-- What a round of the loop comes to: the end, with or without bytes, or a further round from an
offset on, with the bytes that have been read so far. -/
inductive Round where
  | over (bytes : Option (List UInt8))
  | next (offset : Nat) (done : List UInt8)

/-- A round of the loop at an offset into a name. -/
def readRound (name : String) (p : Nat) (done : List UInt8) : Round :=
  match name.toByteArray[p]? with
  | none => .over (some done)
  | some b =>
    if b = percentSign then
      match (slice? name (p + 1) (p + 3)).bind digitsByte? with
      | none => .over none
      | some v => .next (p + 3) (done ++ [v])
    else .next (p + 1) (done ++ [b])

/-- The bytes that a name stands for from an offset on, in a bounded number of rounds. -/
def readBytes (name : String) : Nat → Nat → List UInt8 → Option (Option (List UInt8))
  | 0, _, _ => none
  | left + 1, p, done =>
    match readRound name p done with
    | .over bytes => some bytes
    | .next q done => readBytes name left q done

/-- The text of a name, in a bounded number of rounds. -/
def readName (rounds : Nat) (name : String) : Option (Option String) :=
  (readBytes name rounds 0 []).map fun bytes => bytes.bind fun bs => String.fromUTF8? ⟨bs.toArray⟩

variable {name : String} {p q : Nat} {cs : List Char}

/-! ## Two digits -/

/-- The byte that the first two of some bytes stand for. -/
def leadingByte? : List UInt8 → Option UInt8
  | first :: second :: _ => nameByte? first second
  | _ => none

theorem lt_of_hexValue? {b v : UInt8} (h : hexValue? b = some v) : b.toNat < 128 := by
  simp only [hexValue?, Bool.and_eq_true, decide_eq_true_eq, UInt8.le_iff_toNat_le] at h
  split_ifs at h with hdigit hupper hlower
  · exact Nat.lt_of_le_of_lt hdigit.2 (by decide)
  · exact Nat.lt_of_le_of_lt hupper.2 (by decide)
  · exact Nat.lt_of_le_of_lt hlower.2 (by decide)

theorem lt_of_nameByte? {first second v : UInt8} (h : nameByte? first second = some v) :
    first.toNat < 128 ∧ second.toNat < 128 := by
  unfold nameByte? at h
  split at h
  · next hplus =>
    subst hplus
    exact ⟨by decide, lt_of_hexValue? h⟩
  · unfold hexByte? at h
    split at h
    · next hfirst hsecond => exact ⟨lt_of_hexValue? hfirst, lt_of_hexValue? hsecond⟩
    · cases h

theorem toList_toUTF8_ofList (cs : List Char) :
    (String.ofList cs).toUTF8.toList = cs.flatMap String.utf8EncodeChar := by
  rw [toList_toUTF8, toByteArray_eq, String.toList_ofList, List.data_toByteArray]

/-- A part of a name of two bytes stands for the byte that the bytes from there on begin with. Where
there is no such part, they begin with none, since digits are whole characters. -/
theorem slice?_bind_digitsByte? (h : At name p cs) :
    (slice? name p (p + 2)).bind digitsByte? =
      leadingByte? (cs.flatMap String.utf8EncodeChar) := by
  by_cases hstop : ∃ rest, At name (p + 2) rest
  · obtain ⟨rest, hrest⟩ := hstop
    obtain ⟨taken, rfl, hwidth⟩ := h.between hrest (Nat.le_add_right _ _)
    have hlength : (taken.flatMap String.utf8EncodeChar).length = 2 := by
      rw [length_encoded]
      omega
    obtain ⟨first, second, hbytes⟩ := List.length_eq_two.1 hlength
    rw [← hwidth, h.slice?_eq, Option.bind_some, digitsByte?, toList_toUTF8_ofList,
      List.flatMap_append, hbytes]
    rfl
  · have hnone : slice? name p (p + 2) = none := by
      refine if_neg fun hvalid => hstop (at_of_isValid ?_)
      simpa using hvalid.2.2
    rw [hnone, Option.bind_none, Eq.comm, Option.eq_none_iff_forall_ne_some]
    intro v hv
    apply hstop
    -- both bytes would be digits, so that there is a boundary behind the second one
    cases hbytes : cs.flatMap String.utf8EncodeChar with
    | nil =>
      rw [hbytes] at hv
      cases hv
    | cons first more =>
      cases more with
      | nil =>
        rw [hbytes] at hv
        cases hv
      | cons second more =>
        rw [hbytes] at hv
        obtain ⟨-, hsecond⟩ := lt_of_nameByte? hv
        refine at_behind_byte (b := second) ?_ hsecond
        rw [getElem?_bytes, ← List.getElem?_drop, h.bytes, hbytes]
        rfl

/-! ## The whole loop -/

theorem decodeBytes?_percent (more : List UInt8) :
    decodeBytes? (percentSign :: more) =
      (leadingByte? more).bind fun v => (decodeBytes? (more.drop 2)).map (v :: ·) := by
  rw [decodeBytes?.eq_def]
  dsimp only
  rw [if_pos rfl]
  match more with
  | [] => rfl
  | [_] => rfl
  | first :: second :: rest =>
    simp only [leadingByte?, List.drop_succ_cons, List.drop_zero]
    cases nameByte? first second with
    | none => rfl
    | some v => cases decodeBytes? rest <;> rfl

/-- What stands at a percent sign is a boundary, and so is what stands behind it. -/
theorem at_behind_percent (h : name.toByteArray[p]? = some percentSign) :
    ∃ cs, At name (p + 1) cs :=
  at_behind_byte h (by decide)

/-- The loop comes to what the bytes from its offset on stand for. By induction on the rounds; every
one of them leaves fewer bytes. -/
theorem readBytes_eq {left : Nat} {done bytes : List UInt8}
    (hbytes : (name.toList.flatMap String.utf8EncodeChar).drop p = bytes)
    (hleft : bytes.length < left) :
    readBytes name left p done = some ((decodeBytes? bytes).map (done ++ ·)) := by
  induction left generalizing p done bytes with
  | zero => exact absurd hleft (Nat.not_lt_zero _)
  | succ left ih =>
    have hhead : name.toByteArray[p]? = bytes.head? := by
      rw [getElem?_bytes, ← hbytes, List.head?_drop]
    have hdrop (k : Nat) :
        (name.toList.flatMap String.utf8EncodeChar).drop (p + k) = bytes.drop k := by
      rw [← hbytes, List.drop_drop]
    unfold readBytes readRound
    rw [hhead]
    cases bytes with
    | nil => simp [decodeBytes?]
    | cons b rest =>
      dsimp only [List.head?_cons]
      by_cases hb : b = percentSign
      · subst hb
        obtain ⟨cs, hat⟩ := at_behind_percent hhead
        have hrest : cs.flatMap String.utf8EncodeChar = rest := hat.bytes.symm.trans (hdrop 1)
        rw [if_pos rfl, slice?_bind_digitsByte? hat, hrest, decodeBytes?_percent]
        cases leadingByte? rest with
        | none => rfl
        | some v =>
          have hshorter : (rest.drop 2).length < left := by
            rw [List.length_drop]
            rw [List.length_cons] at hleft
            omega
          dsimp only
          rw [ih (hdrop 3) hshorter, Option.bind_some]
          simp [Function.comp_def]
      · rw [if_neg hb, decodeBytes?_cons_of_ne hb]
        dsimp only
        rw [ih (hdrop 1) (Nat.lt_of_succ_lt_succ hleft)]
        simp [Function.comp_def]

/-- **The loop reads the text of a name** in as many rounds as the name has bytes and one more. -/
theorem readName_eq {rounds : Nat} (hrounds : name.utf8ByteSize < rounds) :
    readName rounds name = some (decode? name) := by
  have hlength : (name.toList.flatMap String.utf8EncodeChar).length < rounds := by
    rwa [length_encoded, byteLength_eq, ← String.utf8ByteSize_ofList, String.ofList_toList]
  have hall : name.toUTF8.toList = name.toList.flatMap String.utf8EncodeChar := by
    rw [toList_toUTF8, toByteArray_eq, List.data_toByteArray]
  rw [readName, readBytes_eq (List.drop_zero ..) hlength, decode?, hall]
  simp

/-! ## Characters of names -/

/-- Whether a character may stand in a name: a letter or a digit of ASCII, `-`, `_` or `%`. -/
def inName (c : Char) : Bool := c.isAlphanum || c == '-' || c == '_' || c == '%'

theorem inName_iff {c : Char} : inName c = true ↔
    (65 ≤ c.toNat ∧ c.toNat ≤ 90) ∨ (97 ≤ c.toNat ∧ c.toNat ≤ 122) ∨
      (48 ≤ c.toNat ∧ c.toNat ≤ 57) ∨ c.toNat = 45 ∨ c.toNat = 95 ∨ c.toNat = 37 := by
  show ((decide (c.val ≥ 'A'.val ∧ c.val ≤ 'Z'.val) ||
    (decide (c.val ≥ 'a'.val) && decide (c.val ≤ 'z'.val)) ||
    (decide (c.val ≥ '0'.val) && decide (c.val ≤ '9'.val))) || c == '-' || c == '_' || c == '%') = true ↔ _
  simp only [Bool.or_eq_true, Bool.and_eq_true, decide_eq_true_eq, beq_iff_eq, ge_iff_le,
    UInt32.le_iff_toNat_le, ← Char.toNat_inj, or_assoc]
  exact Iff.rfl

theorem inName_of_mem_encodeByte {b : UInt8} {c : Char} (h : c ∈ encodeByte b) :
    inName c = true := by
  have hdigits : ∀ k : Fin 16, inName (hexDigit (UInt8.ofNat k)) = true := by decide
  have hdigit {n : UInt8} (hn : n.toNat < 16) : inName (hexDigit n) = true := by
    simpa using hdigits ⟨n.toNat, hn⟩
  unfold encodeByte at h
  split at h
  · next hplain =>
    cases List.mem_singleton.1 h
    have hplain := isPlain_iff.1 hplain
    rw [inName_iff, toNat_ofNat b.toNat_lt]
    omega
  · simp only [List.mem_cons, List.not_mem_nil, or_false] at h
    obtain rfl | rfl | rfl := h
    · decide
    · exact hdigit (toNat_div_lt b)
    · exact hdigit (toNat_mod_lt b)

theorem inName_of_mem_encode {t : String} {c : Char} (h : c ∈ (encode t).toList) :
    inName c = true := by
  rw [encode, String.toList_ofList] at h
  obtain ⟨b, -, hc⟩ := List.mem_flatMap.1 h
  exact inName_of_mem_encodeByte hc

/-! ## Parts of names -/

/-- The part behind a percent sign starts at a boundary, so that it exists where it ends at one. -/
theorem isSome_slice?_iff (h : name.toByteArray[p]? = some percentSign) :
    (slice? name (p + 1) (p + 3)).isSome ↔ String.Pos.Raw.IsValid name ⟨p + 3⟩ := by
  obtain ⟨cs, hat⟩ := at_behind_percent h
  have hstart := hat.isValid
  simp [slice?, hstart]

/-- **Names hold their texts.** For every text, its name consists of letters and digits of ASCII,
`-`, `_` and `%`, and what is read from the name is the text; so no two texts have one name. For
every name, whether or not it is that of a text, the loop over its bytes ends within as many rounds
as it has bytes and one more. The part of the name that is taken behind a percent sign starts at a
boundary between characters, and where it would not end at one, no part is taken and the name has no
text. -/
theorem names_hold_texts :
    (∀ t : String, (∀ c ∈ (encode t).toList, inName c) ∧ decode? (encode t) = some t) ∧
    (∀ t u : String, encode t = encode u ↔ t = u) ∧
    (∀ (name : String) (rounds : Nat), name.utf8ByteSize < rounds →
      readName rounds name = some (decode? name)) ∧
    ∀ (name : String) (p : Nat), name.toByteArray[p]? = some percentSign →
      String.Pos.Raw.IsValid name ⟨p + 1⟩ ∧
      ((slice? name (p + 1) (p + 3)).isSome ↔ String.Pos.Raw.IsValid name ⟨p + 3⟩) ∧
      (¬ String.Pos.Raw.IsValid name ⟨p + 3⟩ → ∀ done, readRound name p done = .over none) := by
  refine ⟨fun t => ⟨fun c hc => inName_of_mem_encode hc, decode?_encode t⟩,
    fun t u => encode_inj, fun name rounds hrounds => readName_eq hrounds, fun name p h => ?_⟩
  obtain ⟨cs, hat⟩ := at_behind_percent h
  refine ⟨hat.isValid, isSome_slice?_iff h, fun hstop done => ?_⟩
  have hnone : slice? name (p + 1) (p + 3) = none := by
    rw [← Option.not_isSome_iff_eq_none, isSome_slice?_iff h]
    exact hstop
  rw [readRound, h]
  dsimp only
  rw [if_pos rfl, hnone, Option.bind_none]

example : encode "run-1/é" = "run-1%2F%C3%A9" := by cbv

end WorkflowGraph.Text.Percent
