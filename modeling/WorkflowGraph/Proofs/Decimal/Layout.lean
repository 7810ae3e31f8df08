import WorkflowGraph.Decimal.Layout
import WorkflowGraph.Proofs.Decimal.Shortest

/-!
# Written numbers

An integer is written with digits and a sign only. A floating-point number always has a point or an
exponent as well, so it is never written like an integer. In every layout a decimal is written as a
numeral: digits in front of a point, digits behind it and an exponent, of which a reader makes the
number again (`Numeral.read_text`). With the shortest digits of a number that makes every layout
injective (`NumberLayout.write_injective`).
-/

set_option autoImplicit false

namespace WorkflowGraph

/-! ## Integers -/

/-- Whether a character is a digit or a sign. -/
def IsNumeral (c : Char) : Prop := c.isDigit = true ∨ c = '-'

theorem isDigit_of_mem_toString {n : Nat} {c : Char} (h : c ∈ (toString n).toList) :
    c.isDigit = true := by
  rw [Nat.toString_eq_repr, Nat.toList_repr] at h
  exact Nat.isDigit_of_mem_toDigits (by decide) (by decide) h

theorem isNumeral_of_mem_toString {n : Int} {c : Char} (h : c ∈ (toString n).toList) :
    IsNumeral c := by
  rw [Int.toString_eq_repr, Int.repr_eq_if] at h
  split at h
  · exact .inl (isDigit_of_mem_toString h)
  · rw [String.toList_append] at h
    rcases List.mem_append.1 h with h | h
    · exact .inr (List.mem_singleton.1 h)
    · exact .inl (isDigit_of_mem_toString h)

/-- Whether a character occurs in numbers. -/
def IsNumberPart (c : Char) : Prop := IsNumeral c ∨ c = '.' ∨ c = 'e' ∨ c = '+'

theorem toList_toString_ne_nil (n : Nat) : (toString n).toList ≠ [] := by
  rw [Nat.toString_eq_repr, Nat.toList_repr]
  exact Nat.toDigits_ne_nil

theorem toList_toString_int_ne_nil (n : Int) : (toString n).toList ≠ [] := by
  rw [Int.toString_eq_repr, Int.repr_eq_if]
  split
  · exact toList_toString_ne_nil n.toNat
  · simp

theorem ofDigitChars_toString (n : Nat) : Nat.ofDigitChars 10 (toString n).toList 0 = n := by
  rw [Nat.toString_eq_repr, Nat.toList_repr, Nat.ofDigitChars_ten_toDigits]

/-! ## Numerals -/

/-- The parts of a written decimal: the digits in front of the point and behind it, and the exponent
with whether a sign is written in front of a positive one. -/
structure Numeral where
  whole : List Char
  fraction : List Char
  exponent : Option (Bool × Int)

namespace Numeral

/-- The text of an exponent. -/
def exponentText : Option (Bool × Int) → List Char
  | none => []
  | some (plus, e) => 'e' :: ((if plus then ['+'] else []) ++ (toString e).toList)

/-- The text that the parts make. A point stands in front of the digits behind it only. -/
def text (n : Numeral) : List Char :=
  n.whole ++ ((if n.fraction.isEmpty then [] else '.' :: n.fraction) ++ exponentText n.exponent)

/-- The number that the parts stand for. -/
def toRat (n : Numeral) : ℚ :=
  Nat.ofDigitChars 10 (n.whole ++ n.fraction) 0 *
    10 ^ ((n.exponent.elim 0 Prod.snd : Int) - n.fraction.length)

/-- There are digits in front of the point, and digits behind it or an exponent; a sign stands in
front of a positive exponent only. -/
structure WellFormed (n : Numeral) : Prop where
  whole_ne : n.whole ≠ []
  whole : ∀ c ∈ n.whole, c.isDigit = true
  fraction : ∀ c ∈ n.fraction, c.isDigit = true
  marked : n.fraction ≠ [] ∨ n.exponent ≠ none
  plus : ∀ e, n.exponent = some (true, e) → 0 ≤ e

/-- Read an exponent. -/
def readExponent : List Char → Int
  | '+' :: cs => Nat.ofDigitChars 10 cs 0
  | '-' :: cs => -(Nat.ofDigitChars 10 cs 0 : Int)
  | cs => Nat.ofDigitChars 10 cs 0

/-- Read the number that a text stands for: up to the letter `e` the digits, and behind it the
exponent. -/
def read (cs : List Char) : ℚ :=
  let mantissa := cs.takeWhile (· ≠ 'e')
  let whole := mantissa.takeWhile (· ≠ '.')
  let fraction := (mantissa.dropWhile (· ≠ '.')).tail
  Nat.ofDigitChars 10 (whole ++ fraction) 0 *
    10 ^ (readExponent (cs.dropWhile (· ≠ 'e')).tail - fraction.length)

theorem readExponent_of_isDigit {cs : List Char} (h : ∀ c ∈ cs, c.isDigit = true) :
    readExponent cs = Nat.ofDigitChars 10 cs 0 := by
  unfold readExponent
  split
  · exact absurd (h _ List.mem_cons_self) (by decide)
  · exact absurd (h _ List.mem_cons_self) (by decide)
  · rfl

theorem readExponent_toString (e : Int) : readExponent (toString e).toList = e := by
  rw [Int.toString_eq_repr, Int.repr_eq_if]
  split
  · next h =>
    have hdigits := readExponent_of_isDigit fun c hc => isDigit_of_mem_toString (n := e.toNat) hc
    rw [ofDigitChars_toString] at hdigits
    exact hdigits.trans (Int.toNat_of_nonneg h)
  · next h =>
    rw [String.toList_append]
    change -(Nat.ofDigitChars 10 (toString (-e).toNat).toList 0 : Int) = e
    rw [ofDigitChars_toString]
    omega

theorem readExponent_exponentText {e : Int} {plus : Bool} (h : plus = true → 0 ≤ e) :
    readExponent ((if plus then ['+'] else []) ++ (toString e).toList) = e := by
  cases plus with
  | false => exact readExponent_toString e
  | true =>
    have hnonneg := h rfl
    rw [Int.toString_eq_repr, Int.repr_eq_if, if_pos hnonneg]
    change ((Nat.ofDigitChars 10 (toString e.toNat).toList 0 : Nat) : Int) = e
    rw [ofDigitChars_toString, Int.toNat_of_nonneg hnonneg]

/-- What stands in front of a character that ends it. -/
theorem takeWhile_append_cons {p : Char → Bool} {a b : List Char} (ha : ∀ c ∈ a, p c = true)
    (hb : ∀ c ∈ b.head?, p c = false) : (a ++ b).takeWhile p = a ∧ (a ++ b).dropWhile p = b := by
  rw [List.takeWhile_append_of_pos ha, List.dropWhile_append_of_pos ha]
  cases b with
  | nil => simp
  | cons c b => simp [hb c rfl]

theorem ne_of_isDigit {c : Char} (h : c.isDigit = true) : c ≠ '.' ∧ c ≠ 'e' := by
  constructor <;> rintro rfl <;> exact absurd h (by decide)

/-- **A numeral is read back.** -/
theorem read_text {n : Numeral} (h : n.WellFormed) : read n.text = n.toRat := by
  obtain ⟨point, hpoint⟩ :
      ∃ point, point = if n.fraction.isEmpty then [] else '.' :: n.fraction := ⟨_, rfl⟩
  have htail : point.tail = n.fraction := by
    rw [hpoint]
    split
    · next hempty => exact (List.isEmpty_iff.1 hempty).symm
    · rfl
  have hstart : ∀ c ∈ point.head?, decide (c ≠ '.') = false := by
    rw [hpoint]
    split <;> simp
  have hmantissa : ∀ c ∈ n.whole ++ point, decide (c ≠ 'e') = true := by
    intro c hc
    refine decide_eq_true ?_
    rcases List.mem_append.1 hc with hc | hc
    · exact (ne_of_isDigit (h.whole c hc)).2
    · rw [hpoint] at hc
      split at hc
      · cases hc
      · rcases List.mem_cons.1 hc with rfl | hc
        · decide
        · exact (ne_of_isDigit (h.fraction c hc)).2
  have hletter : ∀ c ∈ (exponentText n.exponent).head?, decide (c ≠ 'e') = false := by
    unfold exponentText
    split <;> simp
  obtain ⟨htake, hdrop⟩ := takeWhile_append_cons hmantissa hletter
  obtain ⟨hwhole, hfraction⟩ := takeWhile_append_cons
    (fun c hc => decide_eq_true (ne_of_isDigit (h.whole c hc)).1) hstart
  have hexponent : readExponent (exponentText n.exponent).tail = n.exponent.elim 0 Prod.snd := by
    cases hparts : n.exponent with
    | none => rfl
    | some parts =>
      exact readExponent_exponentText fun hplus => h.plus parts.2 (by rw [hparts, ← hplus])
  rw [text, ← hpoint, ← List.append_assoc, read, toRat]
  rw [htake, hdrop, hwhole, hfraction, htail, hexponent]

theorem WellFormed.head? {n : Numeral} (h : n.WellFormed) :
    ∃ c, n.text.head? = some c ∧ c.isDigit = true := by
  obtain ⟨c, rest, hwhole⟩ := List.exists_cons_of_ne_nil h.whole_ne
  refine ⟨c, ?_, h.whole c (hwhole ▸ List.mem_cons_self)⟩
  rw [text, hwhole]
  rfl

theorem WellFormed.mark_mem {n : Numeral} (h : n.WellFormed) : '.' ∈ n.text ∨ 'e' ∈ n.text := by
  rcases h.marked with hfraction | hexponent
  · refine .inl (List.mem_append_right _ (List.mem_append_left _ ?_))
    rw [if_neg (by simpa using hfraction)]
    exact List.mem_cons_self
  · refine .inr (List.mem_append_right _ (List.mem_append_right _ ?_))
    obtain ⟨parts, hparts⟩ := Option.ne_none_iff_exists'.1 hexponent
    rw [hparts]
    exact List.mem_cons_self

theorem WellFormed.of_mem_text {n : Numeral} (h : n.WellFormed) {c : Char} (hc : c ∈ n.text) :
    IsNumberPart c := by
  rcases List.mem_append.1 hc with hc | hc
  · exact .inl (.inl (h.whole c hc))
  · rcases List.mem_append.1 hc with hc | hc
    · split at hc
      · cases hc
      · rcases List.mem_cons.1 hc with rfl | hc
        · exact .inr (.inl rfl)
        · exact .inl (.inl (h.fraction c hc))
    · unfold exponentText at hc
      split at hc
      · cases hc
      · rcases List.mem_cons.1 hc with rfl | hc
        · exact .inr (.inr (.inl rfl))
        · rcases List.mem_append.1 hc with hc | hc
          · split at hc
            · exact .inr (.inr (.inr (List.mem_singleton.1 hc)))
            · cases hc
          · exact .inl (isNumeral_of_mem_toString hc)

end Numeral

/-! ## Decimals -/

namespace Decimal

theorem toList_zeros (n : Nat) : (zeros n).toList = List.replicate n '0' := String.toList_ofList

theorem isDigit_of_mem_replicate {n : Nat} {c : Char} (h : c ∈ List.replicate n '0') :
    c.isDigit = true := by
  rw [List.eq_of_mem_replicate h]
  decide

/-- Whether a text is that of a numeral which stands for a number. -/
def Stands (text : List Char) (q : ℚ) : Prop :=
  ∃ n : Numeral, n.WellFormed ∧ text = n.text ∧ n.toRat = q

/-- Whether characters are the digits of a number. -/
structure Digits (digits : List Char) (value : Nat) : Prop where
  ne_nil : digits ≠ []
  digit : ∀ c ∈ digits, c.isDigit = true
  value : Nat.ofDigitChars 10 digits 0 = value

namespace Digits

variable {digits : List Char} {value : Nat} {scale : Int}

theorem length_pos (h : Digits digits value) : 0 < digits.length := List.length_pos_iff.2 h.ne_nil

/-- Zeros stand between the point and the digits. -/
theorem stands_behind (h : Digits digits value) (hpoint : scale + digits.length ≤ 0) :
    Stands ("0." ++ zeros (scale + digits.length).natAbs ++ String.ofList digits).toList
      (value * 10 ^ scale) := by
  refine ⟨⟨['0'], List.replicate (scale + digits.length).natAbs '0' ++ digits, none⟩,
    ⟨by simp, by simp, ?_, .inl (by simp [h.ne_nil]), by simp⟩, ?_, ?_⟩
  · intro c hc
    exact (List.mem_append.1 hc).elim isDigit_of_mem_replicate (h.digit c)
  · simp [Numeral.text, Numeral.exponentText, toList_zeros, h.ne_nil]
  · rw [Numeral.toRat, Nat.ofDigitChars_append, Nat.ofDigitChars_append,
      show Nat.ofDigitChars 10 ['0'] 0 = 0 from rfl, Nat.ofDigitChars_replicate_zero,
      Nat.mul_zero, h.value, List.length_append, List.length_replicate]
    congr 2
    simp only [Option.elim_none]
    omega

/-- Zeros stand between the digits and the point. -/
theorem stands_before (h : Digits digits value) (hpoint : 0 < scale + digits.length)
    (hlarge : digits.length ≤ (scale + digits.length).toNat) :
    Stands (String.ofList digits ++ zeros ((scale + digits.length).toNat - digits.length) ++
      ".0").toList (value * 10 ^ scale) := by
  obtain ⟨count, rfl⟩ : ∃ count : Nat, scale = count := ⟨scale.toNat, by omega⟩
  have hcount : ((count : Int) + digits.length).toNat - digits.length = count := by omega
  rw [hcount]
  refine ⟨⟨digits ++ List.replicate count '0', ['0'], none⟩,
    ⟨by simp [h.ne_nil], ?_, by simp, .inl (by simp), by simp⟩, ?_, ?_⟩
  · intro c hc
    exact (List.mem_append.1 hc).elim (h.digit c) isDigit_of_mem_replicate
  · simp [Numeral.text, Numeral.exponentText, toList_zeros]
  · rw [Numeral.toRat, List.append_assoc, ← List.replicate_succ', Nat.ofDigitChars_append,
      Nat.ofDigitChars_replicate_zero, h.value]
    simp only [Option.elim_none, List.length_singleton]
    rw [zpow_sub₀ (by norm_num)]
    push_cast
    simp
    ring

/-- The point stands among the digits. -/
theorem stands_among (h : Digits digits value) (hpoint : 0 < scale + digits.length)
    (hsmall : ¬ digits.length ≤ (scale + digits.length).toNat) :
    Stands (String.ofList (digits.take (scale + digits.length).toNat) ++ "." ++
      String.ofList (digits.drop (scale + digits.length).toNat)).toList (value * 10 ^ scale) := by
  have hlength := h.length_pos
  refine ⟨⟨digits.take (scale + digits.length).toNat, digits.drop (scale + digits.length).toNat,
    none⟩, ⟨?_, fun c hc => h.digit c (List.mem_of_mem_take hc),
      fun c hc => h.digit c (List.mem_of_mem_drop hc), .inl ?_, by simp⟩, ?_, ?_⟩
  · simp [h.ne_nil]
    omega
  · simp
    omega
  · rw [Numeral.text, if_neg (by simp; omega)]
    simp [Numeral.exponentText]
  · rw [Numeral.toRat, List.take_append_drop, h.value, List.length_drop]
    congr 2
    simp only [Option.elim_none]
    omega

/-- An exponent says where the point stands. -/
theorem stands_scientific (h : Digits digits value) (plus : Bool) :
    Stands ((if (digits.drop 1).isEmpty then String.ofList (digits.take 1)
      else String.ofList (digits.take 1) ++ "." ++ String.ofList (digits.drop 1)) ++ "e" ++
        (if plus ∧ 0 < scale + digits.length - 1 then "+" else "") ++
        toString (scale + digits.length - 1)).toList (value * 10 ^ scale) := by
  have hlength := h.length_pos
  refine ⟨⟨digits.take 1, digits.drop 1, some (plus && decide (0 < scale + digits.length - 1),
    scale + digits.length - 1)⟩, ⟨?_, fun c hc => h.digit c (List.mem_of_mem_take hc),
      fun c hc => h.digit c (List.mem_of_mem_drop hc), .inr (by simp), ?_⟩, ?_, ?_⟩
  · simp [h.ne_nil]
  · intro e he
    obtain ⟨hplus, rfl⟩ := Prod.mk.inj (Option.some.inj he)
    exact (of_decide_eq_true (Bool.and_eq_true_iff.1 hplus).2).le
  · have hsign : (if plus = true ∧ 0 < scale + digits.length - 1 then "+" else "").toList =
        if plus && decide (0 < scale + digits.length - 1) then ['+'] else [] := by
      simp only [Bool.and_eq_true, decide_eq_true_eq]
      split <;> rfl
    have hmantissa : (if (digits.drop 1).isEmpty then String.ofList (digits.take 1)
        else String.ofList (digits.take 1) ++ "." ++ String.ofList (digits.drop 1)).toList =
        digits.take 1 ++ if (digits.drop 1).isEmpty then [] else '.' :: digits.drop 1 := by
      split <;> simp
    rw [Numeral.text, Numeral.exponentText, ← hsign, ← List.append_assoc, ← hmantissa]
    simp only [String.toList_append, List.append_assoc]
    rfl
  · rw [Numeral.toRat, List.take_append_drop, h.value, List.length_drop]
    congr 2
    simp only [Option.elim_some]
    omega

end Digits

/-- **A decimal is written as a numeral that stands for it**, whatever the layout. -/
theorem stands_write (d : Decimal) (layout : NumberLayout) :
    Stands (d.write layout).toList d.toRat := by
  have hdigits : Digits (toString d.digits).toList d.digits :=
    ⟨toList_toString_ne_nil d.digits, fun _ => isDigit_of_mem_toString,
      ofDigitChars_toString d.digits⟩
  unfold write toRat
  dsimp only
  split
  · split
    · next hpoint => exact hdigits.stands_behind hpoint
    · next hpoint =>
      split
      · next hlarge => exact hdigits.stands_before (not_le.1 hpoint) hlarge
      · next hsmall => exact hdigits.stands_among (not_le.1 hpoint) hsmall
  · exact hdigits.stands_scientific layout.plus

end Decimal

/-! ## Floating-point numbers -/

/-- Whether a text starts like a number and has a point or an exponent. -/
structure IsFloating (s : String) : Prop where
  starts : ∃ c, s.toList.head? = some c ∧ (IsNumeral c ∨ c = '.')
  marked : '.' ∈ s.toList ∨ 'e' ∈ s.toList

/-- An integer is not written like a floating-point number. -/
theorem not_isFloating_toString (n : Int) : ¬IsFloating (toString n) := by
  intro h
  have hmark : ¬IsNumeral '.' ∧ ¬IsNumeral 'e' := by
    unfold IsNumeral
    decide
  rcases h.marked with hmem | hmem
  · exact hmark.1 (isNumeral_of_mem_toString hmem)
  · exact hmark.2 (isNumeral_of_mem_toString hmem)

namespace NumberLayout

variable (layout : NumberLayout)

/-- Whether the sign of a number is written. -/
def Negative (x : Float) : Prop := 2 ^ 63 ≤ x.toBits.toNat

instance (x : Float) : Decidable (Negative x) := inferInstanceAs (Decidable (_ ≤ _))

/-- **A number is written as a numeral** for its shortest decimal, behind a sign where it has one. -/
theorem exists_numeral (x : Float) :
    ∃ n : Numeral, n.WellFormed ∧ n.toRat = (Decimal.shortest x.toBits).toRat ∧
      (layout.write x).toList = (if Negative x then ['-'] else []) ++ n.text := by
  unfold write
  dsimp only
  have hsign : (if Nat.pow 2 63 ≤ x.toBits.toNat then "-" else "").toList =
      if Negative x then ['-'] else [] := apply_ite String.toList (Negative x) "-" ""
  split
  · next hzero =>
    refine ⟨⟨['0'], ['0'], none⟩, ⟨by simp, by simp, by simp, .inl (by simp), by simp⟩, ?_, ?_⟩
    · rw [(Decimal.toRat_eq_zero_iff _).2 hzero]
      simp [Numeral.toRat, Nat.ofDigitChars_cons]
    · rw [String.toList_append, hsign]
      rfl
  · obtain ⟨n, hn, htext, hvalue⟩ := (Decimal.shortest x.toBits).stands_write layout
    exact ⟨n, hn, hvalue, by rw [String.toList_append, hsign, htext]⟩

theorem isFloating_write (x : Float) : IsFloating (layout.write x) := by
  obtain ⟨n, hn, -, htext⟩ := layout.exists_numeral x
  refine ⟨?_, ?_⟩
  · rw [htext]
    split
    · exact ⟨'-', rfl, .inl (.inr rfl)⟩
    · obtain ⟨c, hc, hdigit⟩ := hn.head?
      exact ⟨c, hc, .inl (.inl hdigit)⟩
  · rw [htext]
    exact hn.mark_mem.imp (List.mem_append_right _) (List.mem_append_right _)

theorem isNumberPart_of_mem_write {x : Float} {c : Char} (h : c ∈ (layout.write x).toList) :
    IsNumberPart c := by
  obtain ⟨n, hn, -, htext⟩ := layout.exists_numeral x
  rw [htext] at h
  rcases List.mem_append.1 h with h | h
  · split at h
    · exact .inl (.inr (List.mem_singleton.1 h))
    · cases h
  · exact hn.of_mem_text h

/-- A number is determined by its sign and the number of its bits below it. -/
theorem eq_of_rank_eq {x y : Float} (hsign : Negative x ↔ Negative y)
    (hrank : x.toBits.toNat % 2 ^ 63 = y.toBits.toNat % 2 ^ 63) : x = y := by
  have hx := x.toBits.toNat_lt
  have hy := y.toBits.toNat_lt
  unfold Negative at hsign
  have hbits : x.toBits = y.toBits := UInt64.toNat_inj.1 (by omega)
  obtain ⟨⟨bits, hvalid⟩⟩ := x
  obtain ⟨⟨bits', hvalid'⟩⟩ := y
  obtain rfl : bits = bits' := hbits
  rfl

/-- **Two numbers are never written alike.** The sign stands in front, and what follows is read
back as the shortest decimal, of which the bits can be told. -/
theorem write_injective : Function.Injective layout.write := by
  intro x y h
  obtain ⟨m, hm, hmValue, hmText⟩ := layout.exists_numeral x
  obtain ⟨n, hn, hnValue, hnText⟩ := layout.exists_numeral y
  rw [h, hnText] at hmText
  have hdash {k : Numeral} (hk : k.WellFormed) {rest : List Char} : k.text ≠ '-' :: rest := by
    obtain ⟨c, hc, hdigit⟩ := hk.head?
    intro heq
    rw [heq] at hc
    cases hc
    exact absurd hdigit (by decide)
  obtain ⟨hsign, htext⟩ : (Negative x ↔ Negative y) ∧ m.text = n.text := by
    split at hmText <;> split at hmText
    · next hy hx => exact ⟨⟨fun _ => hy, fun _ => hx⟩, (List.cons.inj hmText).2.symm⟩
    · exact absurd hmText.symm (hdash hm)
    · exact absurd hmText (hdash hn)
    · next hy hx => exact ⟨⟨fun h => absurd h hx, fun h => absurd h hy⟩, hmText.symm⟩
  refine eq_of_rank_eq hsign (Decimal.rank_eq_of_toRat_shortest_eq ?_)
  rw [← hmValue, ← hnValue, ← Numeral.read_text hm, ← Numeral.read_text hn, htext]

end NumberLayout

end WorkflowGraph
