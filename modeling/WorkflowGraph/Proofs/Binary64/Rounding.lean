import Mathlib

/-!
# Rounding to a floating-point number

A floating-point number keeps 53 bits. Rounding shifts the bits that are too many out to the right
and keeps two bits about them, which say how much has been shifted out (`Remains`); what is left is
the quotient rounded to the nearest number, and to the even one of two (`round_eq_finite`).
A number that has been rounded is the same after it has been written as bits and read again
(`unpack_pack`), and numbers of 53 bits are ordered by their exponents first and then by their
mantissas, which is the order of their amounts (`compare_eq`).
-/

set_option autoImplicit false

namespace WorkflowGraph.Binary64

open Float.Model Float.Model.UnpackedFloat

/-- The quotient `m / 2 ^ k` rounded to the nearest natural number, and to the even one where two
are equally near. -/
def halfEven (m k : Nat) : Nat :=
  if 2 * (m % 2 ^ k) < 2 ^ k then m / 2 ^ k
  else if 2 * (m % 2 ^ k) = 2 ^ k then m / 2 ^ k + m / 2 ^ k % 2
  else m / 2 ^ k + 1

theorem le_halfEven (m k : Nat) : m / 2 ^ k ≤ halfEven m k := by
  unfold halfEven
  split_ifs <;> omega

theorem halfEven_le (m k : Nat) : halfEven m k ≤ m / 2 ^ k + 1 := by
  unfold halfEven
  split_ifs <;> omega

@[simp]
theorem halfEven_zero (m : Nat) : halfEven m 0 = m := by
  simp [halfEven, Nat.mod_one]

/-- Rounding keeps the order of two numbers. -/
theorem halfEven_le_halfEven {m n : Nat} (k : Nat) (h : m ≤ n) : halfEven m k ≤ halfEven n k := by
  have hdiv : m / 2 ^ k ≤ n / 2 ^ k := Nat.div_le_div_right h
  rcases Nat.lt_or_eq_of_le hdiv with hlt | heq
  · exact (halfEven_le m k).trans (Nat.le_trans hlt (le_halfEven n k))
  · have hm := Nat.div_add_mod m (2 ^ k)
    have hn := Nat.div_add_mod n (2 ^ k)
    rw [heq] at hm
    have hmod : m % 2 ^ k ≤ n % 2 ^ k := by omega
    unfold halfEven
    rw [heq]
    split_ifs <;> omega

/-- What a mantissa and its two bits say about the number that has been shifted `k` times: the
quotient, whether the rest is a half at least, and whether it is neither nothing nor a half. -/
structure Remains (m k : Nat) (em : ExtendedMantissa) : Prop where
  mantissa : em.mantissa = m / 2 ^ k
  half : em.roundBit = true ↔ 2 ^ k ≤ 2 * (m % 2 ^ k)
  rest : em.stickyBit = true ↔ m % 2 ^ k ≠ 0 ∧ 2 * (m % 2 ^ k) ≠ 2 ^ k

namespace Remains

variable {m k : Nat} {em : ExtendedMantissa}

theorem start (m : Nat) : Remains m 0 ⟨m, false, false⟩ :=
  ⟨by simp, by simp [Nat.mod_one], by simp [Nat.mod_one]⟩

theorem shiftRightOne (h : Remains m k em) : Remains m (k + 1) em.shiftRightOne := by
  have hpos : 0 < 2 ^ k := Nat.two_pow_pos k
  have hlt : m % 2 ^ k < 2 ^ k := Nat.mod_lt m hpos
  have hrest : m % 2 ^ (k + 1) = m % 2 ^ k + 2 ^ k * (m / 2 ^ k % 2) := by
    rw [Nat.pow_succ, Nat.mod_mul]
  have hpow : 2 ^ (k + 1) = 2 * 2 ^ k := by rw [Nat.pow_succ, Nat.mul_comm]
  have hbit : (2 ^ k * (m / 2 ^ k % 2) = 0 ∧ m / 2 ^ k % 2 = 0) ∨
      (2 ^ k * (m / 2 ^ k % 2) = 2 ^ k ∧ m / 2 ^ k % 2 = 1) := by
    rcases Nat.mod_two_eq_zero_or_one (m / 2 ^ k) with hbit | hbit <;> simp [hbit]
  obtain ⟨hmantissa, hhalf, hsticky⟩ := h
  constructor
  · rw [ExtendedMantissa.shiftRightOne, hmantissa, Nat.div_div_eq_div_mul, Nat.pow_succ]
  · rw [ExtendedMantissa.shiftRightOne, hmantissa, hrest, hpow, bne_iff_ne]
    omega
  · rw [ExtendedMantissa.shiftRightOne, Bool.or_eq_true, hhalf, hsticky, hrest, hpow]
    omega

/-- What is left after `k` shifts. By induction on the shifts. -/
theorem shiftRight (m k : Nat) : Remains m k (ExtendedMantissa.mk m false false >>> k) := by
  induction k with
  | zero => exact start m
  | succ k ih => exact ih.shiftRightOne

theorem roundedMantissa (h : Remains m k em) : em.roundedMantissa = halfEven m k := by
  have hpos : 0 < 2 ^ k := Nat.two_pow_pos k
  obtain ⟨q, half, rest⟩ := em
  obtain ⟨hmantissa, hhalf, hrest⟩ := h
  dsimp only at hmantissa hhalf hrest
  subst hmantissa
  unfold halfEven
  cases half <;> cases rest <;>
    simp only [ExtendedMantissa.roundedMantissa, ExtendedMantissa.accuracy,
      Accuracy.roundToNearestEven, true_iff, false_iff, Bool.false_eq_true] at hhalf hrest ⊢ <;>
    split_ifs <;> omega

end Remains

section Shift

theorem targetExponent_eq (m : Nat) (e : Int) :
    Format.binary64.targetExponent (totalExponent m e) = max (m.log2 + e - 52) (-1074) := by
  simp only [Format.targetExponent, totalExponent, Format.mantissaBits, Format.minExponent]
  omega

/-- Shifting a number of `53 + k` bits to 53 bits. -/
theorem shiftToTargetExponent_eq {m k : Nat} {e : Int} (hlog : m.log2 = 52 + k)
    (he : -1074 ≤ e + k) :
    shiftToTargetExponent Format.binary64 m e .exact =
      (ExtendedMantissa.mk m false false >>> k, e + k) := by
  have hshift : (max ((m.log2 : Int) + e - 52) (-1074) - e).toNat = k := by omega
  simp only [shiftToTargetExponent, shiftToExponent, targetExponent_eq, hshift,
    ExtendedMantissa.ofMantissaAndAccuracy]

theorem log2_mul_two_pow {m : Nat} (hm : 0 < m) (k : Nat) : (m * 2 ^ k).log2 = m.log2 + k := by
  have hlow := Nat.log2_self_le hm.ne'
  have hhigh : m < 2 ^ (m.log2 + 1) := Nat.lt_log2_self
  rw [Nat.log2_eq_iff (Nat.mul_pos hm (Nat.two_pow_pos k)).ne', Nat.add_right_comm, Nat.pow_add,
    Nat.pow_add]
  exact ⟨Nat.mul_le_mul_right _ hlow, Nat.mul_lt_mul_of_pos_right hhigh (Nat.two_pow_pos k)⟩

theorem log2_eq_of_lt {m : Nat} (hlow : 2 ^ 52 ≤ m) (hhigh : m < 2 ^ 53) : m.log2 = 52 :=
  (Nat.log2_eq_iff (by omega)).mpr ⟨hlow, hhigh⟩

/-- A number with more than 52 bits is rounded to 53 bits. Where the quotient is rounded up to a
power of two, the exponent is one larger. -/
theorem roundWithAccuracy_eq_finite (s : Sign) {m k : Nat} {e : Int} (hlog : m.log2 = 52 + k)
    (he : -1074 ≤ e + k) :
    ∃ (m' : Nat) (e' : Int) (hpos : 0 < m'),
      roundWithAccuracy Format.binary64 s m e .exact = .finite s m' e' hpos ∧
      2 ^ 52 ≤ m' ∧ m' < 2 ^ 53 ∧
      (e' = e + k ∧ m' = halfEven m k ∨ e' = e + k + 1 ∧ 2 * m' = halfEven m k) := by
  have hm : m ≠ 0 := by
    rintro rfl
    rw [Nat.log2_zero] at hlog
    omega
  have hlow : 2 ^ 52 ≤ m / 2 ^ k := by
    rw [Nat.le_div_iff_mul_le (Nat.two_pow_pos k), ← Nat.pow_add, ← hlog]
    exact Nat.log2_self_le hm
  have hhigh : m / 2 ^ k < 2 ^ 53 := by
    rw [Nat.div_lt_iff_lt_mul (Nat.two_pow_pos k), ← Nat.pow_add]
    refine Nat.lt_of_lt_of_eq Nat.lt_log2_self (congrArg (2 ^ ·) ?_)
    omega
  have hfirst := le_halfEven m k
  have hlast := halfEven_le m k
  unfold roundWithAccuracy
  rw [shiftToTargetExponent_eq hlog he]
  dsimp only
  rw [(Remains.shiftRight m k).roundedMantissa]
  by_cases hroom : halfEven m k < 2 ^ 53
  · have hlog' : (halfEven m k).log2 = 52 + 0 := log2_eq_of_lt (hlow.trans hfirst) hroom
    rw [shiftToTargetExponent_eq hlog' (by omega)]
    have hmantissa : (ExtendedMantissa.mk (halfEven m k) false false >>> 0).mantissa =
        halfEven m k := rfl
    have hpos : 0 < halfEven m k := by omega
    simp only [hmantissa]
    rw [dif_neg (by omega)]
    exact ⟨halfEven m k, _, hpos, rfl, hlow.trans hfirst, hroom, .inl ⟨by omega, rfl⟩⟩
  · have hcarry : halfEven m k = 2 ^ 53 := by omega
    rw [hcarry, shiftToTargetExponent_eq (k := 1) (by rw [Nat.log2_two_pow]) (by omega)]
    have hmantissa : (ExtendedMantissa.mk (2 ^ 53) false false >>> 1).mantissa = 2 ^ 52 := rfl
    simp only [hmantissa]
    rw [dif_neg (by omega)]
    exact ⟨2 ^ 52, _, by omega, rfl, by omega, by omega, .inr ⟨by omega, by omega⟩⟩

/-- **Rounding a number within the range of the exponents.** What is left has 53 bits, and is the
number rounded at the bit of that place. -/
theorem round_eq_finite (s : Sign) {m : Nat} {e : Int} (hm : 0 < m) (he : -1022 ≤ m.log2 + e) :
    ∃ (m' : Nat) (e' : Int) (hpos : 0 < m'),
      UnpackedFloat.round Format.binary64 s m e = .finite s m' e' hpos ∧
      2 ^ 52 ≤ m' ∧ m' < 2 ^ 53 ∧
      (e' = m.log2 + e - 52 ∧ m' = halfEven (m * 2 ^ (52 - m.log2)) (m.log2 - 52) ∨
        e' = m.log2 + e - 51 ∧ 2 * m' = halfEven (m * 2 ^ (52 - m.log2)) (m.log2 - 52)) := by
  have hshift : (e - max ((m.log2 : Int) + e - 52) (-1074)).toNat = 52 - m.log2 := by omega
  have hlog : (m * 2 ^ (52 - m.log2)).log2 = 52 + (m.log2 - 52) := by
    rw [log2_mul_two_pow hm]
    omega
  have hmin : -1074 ≤ e - (52 - m.log2 : Nat) + (m.log2 - 52 : Nat) := by omega
  obtain ⟨m', e', hpos, heq, hlow, hhigh, hamount⟩ := roundWithAccuracy_eq_finite s hlog hmin
  refine ⟨m', e', hpos, ?_, hlow, hhigh, ?_⟩
  · unfold UnpackedFloat.round decreaseExponent
    simp only [targetExponent_eq, hshift, Nat.shiftLeft_eq]
    exact heq
  · rcases hamount with ⟨he', hm'⟩ | ⟨he', hm'⟩
    · exact .inl ⟨by omega, hm'⟩
    · exact .inr ⟨by omega, hm'⟩

end Shift

section Packing

/-- **A number of 53 bits whose exponent has room is read back from its bits.** -/
theorem unpack_pack (s : Sign) {m : Nat} {e : Int} (hpos : 0 < m) (hlow : 2 ^ 52 ≤ m)
    (hhigh : m < 2 ^ 53) (hmin : -1074 ≤ e) (hmax : e ≤ 971) :
    (Float.Model.pack (.finite s m e hpos)).unpack = .finite s m e hpos := by
  have hbiased : (e + Format.binary64.exponentBias +
      Format.binary64.mantissaBitsWithoutImplicit).toNat = (e + 1075).toNat := by
    simp only [Format.exponentBias]
    omega
  have hexponent : (BitVec.ofNat 11 (e + 1075).toNat).toNat = (e + 1075).toNat := by
    rw [BitVec.toNat_ofNat]
    omega
  have hnotMax : BitVec.ofNat 11 (e + 1075).toNat ≠ -1#11 := fun heq => by
    have := congrArg BitVec.toNat heq
    rw [hexponent] at this
    simp only [BitVec.reduceNeg, BitVec.toNat_ofNat] at this
    omega
  have hnotZero : BitVec.ofNat 11 (e + 1075).toNat ≠ 0#11 := fun heq => by
    have := congrArg BitVec.toNat heq
    rw [hexponent, BitVec.toNat_ofNat] at this
    omega
  have hmantissa : (1#1 ++ BitVec.ofNat 52 m).toNat = m := by
    rw [BitVec.toNat_append, ← Nat.shiftLeft_add_eq_or_of_lt (BitVec.ofNat 52 m).isLt,
      Nat.shiftLeft_eq, BitVec.toNat_ofNat, BitVec.toNat_ofNat]
    omega
  change UnpackedFloat.unpack Format.binary64 (UnpackedFloat.pack Format.binary64 _) = _
  rw [UnpackedFloat.pack]
  simp only [log2_eq_of_lt hlow hhigh, hbiased]
  rw [if_neg (by omega), if_pos (by simp [Format.mantissaBits]), UnpackedFloat.unpack]
  simp only [unpackMantissa_packComponents, unpackExponent_packComponents,
    unpackSign_packComponents, Sign.ofBitVec_toBitVec]
  rw [if_neg hnotMax, if_neg hnotZero]
  simp only [hmantissa, hexponent, Format.exponentBias, finite.injEq, true_and]
  omega

end Packing

section Order

/-- How many units of `2 ^ (-52)` there are in a finite number. -/
def amount : UnpackedFloat → Int
  | .finite s m e _ => s.apply (m * 2 ^ (e + 52).toNat : Nat)
  | _ => 0

/-- Zero, or a number of 53 bits of which none is less than such a unit. -/
inductive Full : UnpackedFloat → Prop
  | zero (s : Sign) : Full (.zero s)
  | finite (s : Sign) {m : Nat} {e : Int} (hpos : 0 < m) (hlow : 2 ^ 52 ≤ m) (hhigh : m < 2 ^ 53)
      (hmin : -52 ≤ e) (hmax : e ≤ 971) : Full (.finite s m e hpos)

theorem Full.unpack_pack {x : UnpackedFloat} (h : Full x) : (Float.Model.pack x).unpack = x := by
  cases h with
  | zero s => cases s <;> rfl
  | finite s hpos hlow hhigh hmin hmax =>
    exact Binary64.unpack_pack s hpos hlow hhigh (by omega) hmax

theorem Full.neg {x : UnpackedFloat} (h : Full x) : Full x.neg := by
  cases h with
  | zero s => exact .zero _
  | finite s hpos hlow hhigh hmin hmax => exact .finite _ hpos hlow hhigh hmin hmax

theorem amount_neg (x : UnpackedFloat) : amount x.neg = -amount x := by
  cases x with
  | finite s m e h =>
    cases s with
    | positive => rfl
    | negative => exact (Int.neg_neg _).symm
  | _ => simp [amount, UnpackedFloat.neg]

theorem lt_of_exponent_lt {m n : Nat} {d e : Int} (hm : m < 2 ^ 53) (hn : 2 ^ 52 ≤ n)
    (hd : -52 ≤ d) (hlt : d < e) : m * 2 ^ (d + 52).toNat < n * 2 ^ (e + 52).toNat :=
  calc m * 2 ^ (d + 52).toNat
      < 2 ^ 53 * 2 ^ (d + 52).toNat := Nat.mul_lt_mul_of_pos_right hm (Nat.two_pow_pos _)
    _ = 2 ^ 52 * 2 ^ ((d + 52).toNat + 1) := by rw [Nat.pow_succ]; omega
    _ ≤ 2 ^ 52 * 2 ^ (e + 52).toNat :=
        Nat.mul_le_mul_left _ (Nat.pow_le_pow_right (by omega) (by omega))
    _ ≤ n * 2 ^ (e + 52).toNat := Nat.mul_le_mul_right _ hn

theorem compare_natCast (m n : Nat) : compare (m : Int) (n : Int) = compare m n := by
  rcases lt_trichotomy m n with hlt | heq | hgt
  · rw [compare_lt_iff_lt.mpr hlt, compare_lt_iff_lt.mpr (Int.ofNat_lt.mpr hlt)]
  · rw [compare_eq_iff_eq.mpr heq, compare_eq_iff_eq.mpr (congrArg Nat.cast heq)]
  · rw [compare_gt_iff_gt.mpr hgt, compare_gt_iff_gt.mpr (Int.ofNat_lt.mpr hgt)]

/-- Exponents first and then mantissas: that is the order of the amounts. -/
theorem compare_then_compare {m n : Nat} {d e : Int} (hm : 2 ^ 52 ≤ m) (hm' : m < 2 ^ 53)
    (hn : 2 ^ 52 ≤ n) (hn' : n < 2 ^ 53) (hd : -52 ≤ d) (he : -52 ≤ e) :
    (compare d e).then (compare m n) =
      compare ((m * 2 ^ (d + 52).toNat : Nat) : Int) (n * 2 ^ (e + 52).toNat : Nat) := by
  rw [compare_natCast]
  rcases lt_trichotomy d e with hlt | heq | hgt
  · rw [compare_lt_iff_lt.mpr hlt, compare_lt_iff_lt.mpr (lt_of_exponent_lt hm' hn hd hlt)]
    rfl
  · subst heq
    have hpos := Nat.two_pow_pos (d + 52).toNat
    rw [compare_eq_iff_eq.mpr rfl]
    rcases lt_trichotomy m n with hlt | heq | hgt
    · rw [compare_lt_iff_lt.mpr hlt, compare_lt_iff_lt.mpr (Nat.mul_lt_mul_of_pos_right hlt hpos)]
      rfl
    · rw [heq, compare_eq_iff_eq.mpr rfl, compare_eq_iff_eq.mpr rfl]
      rfl
    · rw [compare_gt_iff_gt.mpr hgt, compare_gt_iff_gt.mpr (Nat.mul_lt_mul_of_pos_right hgt hpos)]
      rfl
  · rw [compare_gt_iff_gt.mpr hgt, compare_gt_iff_gt.mpr (lt_of_exponent_lt hn' hm he hgt)]
    rfl

theorem compare_neg_neg (a b : Int) : compare (-a) (-b) = (compare a b).swap := by
  rcases lt_trichotomy a b with hlt | heq | hgt
  · rw [compare_lt_iff_lt.mpr hlt, compare_gt_iff_gt.mpr (Int.neg_lt_neg hlt), Ordering.swap]
  · rw [compare_eq_iff_eq.mpr heq, compare_eq_iff_eq.mpr (congrArg Neg.neg heq), Ordering.swap]
  · rw [compare_gt_iff_gt.mpr hgt, compare_lt_iff_lt.mpr (Int.neg_lt_neg hgt), Ordering.swap]

/-- **Numbers of 53 bits are in the order of their amounts.** -/
theorem compare_eq {x y : UnpackedFloat} (hx : Full x) (hy : Full y) :
    x.compare y = some (compare (amount x) (amount y)) := by
  have hpos {m : Nat} (e : Int) (hm : 0 < m) : 0 < ((m * 2 ^ (e + 52).toNat : Nat) : Int) :=
    Int.natCast_pos.mpr (Nat.mul_pos hm (Nat.two_pow_pos _))
  cases hx with
  | zero s =>
    cases hy with
    | zero t => exact congrArg some (compare_eq_iff_eq.mpr rfl).symm
    | @finite t n e hn hlow hhigh hmin hmax =>
      have hn' := hpos e hn
      cases t with
      | positive => exact congrArg some (compare_lt_iff_lt.mpr hn').symm
      | negative => exact congrArg some (compare_gt_iff_gt.mpr (Int.neg_neg_of_pos hn')).symm
  | @finite s m d hm hmlow hmhigh hmmin hmmax =>
    have hm' := hpos d hm
    cases hy with
    | zero t =>
      cases s with
      | positive => exact congrArg some (compare_gt_iff_gt.mpr hm').symm
      | negative => exact congrArg some (compare_lt_iff_lt.mpr (Int.neg_neg_of_pos hm')).symm
    | @finite t n e hn hlow hhigh hmin hmax =>
      have hn' := hpos e hn
      have horder := compare_then_compare hmlow hmhigh hlow hhigh hmmin hmin
      cases s with
      | positive =>
        cases t with
        | positive => exact congrArg some horder
        | negative =>
          exact congrArg some (compare_gt_iff_gt.mpr ((Int.neg_neg_of_pos hn').trans hm')).symm
      | negative =>
        cases t with
        | positive =>
          exact congrArg some (compare_lt_iff_lt.mpr ((Int.neg_neg_of_pos hm').trans hn')).symm
        | negative =>
          exact congrArg some ((congrArg Ordering.swap horder).trans (compare_neg_neg _ _).symm)

end Order

end WorkflowGraph.Binary64
