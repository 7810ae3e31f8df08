import WorkflowGraph.Value
import WorkflowGraph.Proofs.Binary64.Rounding

/-!
# The floating-point number nearest to an integer

An integer of 64 bits is made a floating-point number by rounding it to 53 bits (`nearest`). What
is left keeps the order of the integers, but not their differences (`nearest_mono`), and the
floating-point numbers of two integers are ordered as the integers that are left
(`floatOfInt_lt_iff`, `floatOfInt_beq_iff`).
-/

set_option autoImplicit false

namespace WorkflowGraph.Binary64

open Float.Model Float.Model.UnpackedFloat

/-- The natural number of 53 bits, and then zeros, that is nearest to a number. -/
def nearestNat (n : Nat) : Nat := halfEven n (n.log2 - 52) * 2 ^ (n.log2 - 52)

/-- The integer of 53 bits, and then zeros, that is nearest to an integer. -/
def nearest (n : Int) : Int := n.sign * nearestNat n.natAbs

theorem nearestNat_eq_self {n : Nat} (h : n.log2 ≤ 52) : nearestNat n = n := by
  rw [nearestNat, Nat.sub_eq_zero_of_le h, halfEven_zero, Nat.pow_zero, Nat.mul_one]

/-- Rounding a number leaves it within its power of two, or takes it to the next one. -/
theorem nearestNat_le (n : Nat) : nearestNat n ≤ 2 ^ (n.log2 + 1) := by
  by_cases h : n.log2 ≤ 52
  · rw [nearestNat_eq_self h]
    exact Nat.lt_log2_self.le
  · have hhigh : n / 2 ^ (n.log2 - 52) < 2 ^ 53 := by
      rw [Nat.div_lt_iff_lt_mul (Nat.two_pow_pos _), ← Nat.pow_add]
      exact Nat.lt_log2_self.trans_eq (congrArg (2 ^ ·) (by omega))
    have hround := halfEven_le n (n.log2 - 52)
    calc nearestNat n
        ≤ 2 ^ 53 * 2 ^ (n.log2 - 52) := Nat.mul_le_mul_right _ (by omega)
      _ = 2 ^ (n.log2 + 1) := by rw [← Nat.pow_add]; exact congrArg (2 ^ ·) (by omega)

theorem le_nearestNat {n : Nat} (hn : 0 < n) : 2 ^ n.log2 ≤ nearestNat n := by
  by_cases h : n.log2 ≤ 52
  · rw [nearestNat_eq_self h]
    exact Nat.log2_self_le hn.ne'
  · have hlow : 2 ^ 52 ≤ n / 2 ^ (n.log2 - 52) := by
      rw [Nat.le_div_iff_mul_le (Nat.two_pow_pos _), ← Nat.pow_add]
      exact (congrArg (2 ^ ·) (by omega)).trans_le (Nat.log2_self_le hn.ne')
    calc 2 ^ n.log2
        = 2 ^ 52 * 2 ^ (n.log2 - 52) := by rw [← Nat.pow_add]; exact congrArg (2 ^ ·) (by omega)
      _ ≤ nearestNat n := Nat.mul_le_mul_right _ (hlow.trans (le_halfEven n _))

theorem nearestNat_mono {m n : Nat} (h : m ≤ n) : nearestNat m ≤ nearestNat n := by
  rcases Nat.eq_zero_or_pos m with hm | hm
  · subst hm
    exact Nat.zero_le _
  · have hlog : m.log2 ≤ n.log2 := (Nat.le_log2 (by omega)).mpr ((Nat.log2_self_le hm.ne').trans h)
    rcases Nat.lt_or_eq_of_le hlog with hlt | heq
    · calc nearestNat m
          ≤ 2 ^ (m.log2 + 1) := nearestNat_le m
        _ ≤ 2 ^ n.log2 := Nat.pow_le_pow_right (by omega) hlt
        _ ≤ nearestNat n := le_nearestNat (by omega)
    · rw [nearestNat, nearestNat, heq]
      exact Nat.mul_le_mul_right _ (halfEven_le_halfEven _ h)

theorem nearest_of_nonneg {n : Int} (h : 0 ≤ n) : nearest n = nearestNat n.natAbs := by
  rcases Int.lt_or_eq_of_le h with hpos | rfl
  · rw [nearest, Int.sign_eq_one_of_pos hpos, Int.one_mul]
  · rfl

theorem nearest_of_neg {n : Int} (h : n < 0) : nearest n = -nearestNat n.natAbs := by
  rw [nearest, Int.sign_eq_neg_one_of_neg h, Int.neg_one_mul]

theorem natAbs_nearest (n : Int) : (nearest n).natAbs = nearestNat n.natAbs := by
  rcases Int.lt_or_le n 0 with hneg | hnonneg
  · rw [nearest_of_neg hneg, Int.natAbs_neg, Int.natAbs_natCast]
  · rw [nearest_of_nonneg hnonneg, Int.natAbs_natCast]

/-- **Rounding keeps the order of the integers.** -/
theorem nearest_mono {a b : Int} (h : a ≤ b) : nearest a ≤ nearest b := by
  rcases Int.lt_or_le a 0 with ha | ha
  · rw [nearest_of_neg ha]
    rcases Int.lt_or_le b 0 with hb | hb
    · rw [nearest_of_neg hb]
      have := nearestNat_mono (show b.natAbs ≤ a.natAbs by omega)
      omega
    · rw [nearest_of_nonneg hb]
      omega
  · rw [nearest_of_nonneg ha, nearest_of_nonneg (ha.trans h)]
    exact Int.ofNat_le.mpr (nearestNat_mono (by omega))

/-- What rounding leaves of a natural number, in units. -/
theorem halfEven_mul_two_pow (n : Nat) :
    halfEven (n * 2 ^ (52 - n.log2)) (n.log2 - 52) * 2 ^ n.log2 = nearestNat n * 2 ^ 52 := by
  rcases Nat.le_total n.log2 52 with hle | hge
  · rw [nearestNat_eq_self hle, Nat.sub_eq_zero_of_le hle, halfEven_zero, Nat.mul_assoc,
      ← Nat.pow_add, Nat.sub_add_cancel hle]
  · rw [nearestNat, Nat.sub_eq_zero_of_le hge, Nat.pow_zero, Nat.mul_one, Nat.mul_assoc,
      ← Nat.pow_add, Nat.sub_add_cancel hge]

/-- The floating-point number of a natural number of 64 bits. -/
theorem unpack_toFloat {n : Nat} (hn : n < 2 ^ 64) :
    Full n.toUInt64.toFloat.toModel.unpack ∧
      amount n.toUInt64.toFloat.toModel.unpack = nearestNat n * 2 ^ 52 := by
  have hvalue : n.toUInt64.toFloat.toModel =
      Float.Model.pack (UnpackedFloat.normalize Format.binary64 n 0 .positive) := by
    have hround : n.toUInt64.toNat = n := Nat.mod_eq_of_lt hn
    change Float.Model.pack
      (UnpackedFloat.normalize Format.binary64 (n.toUInt64.toNat : Int) 0 .positive) = _
    rw [hround]
  rw [hvalue]
  rcases Nat.eq_zero_or_pos n with rfl | hpos
  · exact ⟨.zero .positive, rfl⟩
  · have hlog : n.log2 < 64 := (Nat.log2_lt hpos.ne').mpr hn
    obtain ⟨m, e, hm, heq, hlow, hhigh, hround⟩ :=
      round_eq_finite .positive (e := 0) hpos (by omega)
    have hnormalize : UnpackedFloat.normalize Format.binary64 n 0 .positive =
        .finite .positive m e hm := by
      rw [UnpackedFloat.normalize, compare_gt_iff_gt.mpr (Int.natCast_pos.mpr hpos)]
      exact heq
    have hunits : m * 2 ^ (e + 52).toNat = nearestNat n * 2 ^ 52 := by
      rw [← halfEven_mul_two_pow]
      rcases hround with ⟨he, hm⟩ | ⟨he, hm⟩
      · rw [hm, show (e + 52).toNat = n.log2 by omega]
      · rw [← hm, show (e + 52).toNat = n.log2 + 1 by omega, Nat.pow_succ]
        ring
    have hfull : Full (.finite .positive m e hm) :=
      .finite .positive hm hlow hhigh (by omega) (by omega)
    rw [hnormalize, hfull.unpack_pack]
    refine ⟨hfull, ?_⟩
    change ((m * 2 ^ (e + 52).toNat : Nat) : Int) = _
    rw [hunits, Int.natCast_mul]
    norm_cast

/-- **The floating-point number of an integer of 64 bits** has the amount of the nearest one. -/
theorem unpack_floatOfInt {n : Int} (hlow : Value.minInt ≤ n) (hhigh : n ≤ Value.maxInt) :
    Full (Value.floatOfInt n).toModel.unpack ∧
      amount (Value.floatOfInt n).toModel.unpack = nearest n * 2 ^ 52 := by
  unfold Value.minInt at hlow
  unfold Value.maxInt at hhigh
  unfold Value.floatOfInt
  split_ifs with hneg
  · obtain ⟨hfull, hamount⟩ := unpack_toFloat (n := n.natAbs) (by omega)
    have hvalue : (-(n.natAbs.toUInt64.toFloat)).toModel.unpack =
        n.natAbs.toUInt64.toFloat.toModel.unpack.neg := hfull.neg.unpack_pack
    rw [hvalue, amount_neg, hamount, nearest_of_neg hneg, Int.neg_mul]
    exact ⟨hfull.neg, rfl⟩
  · obtain ⟨hfull, hamount⟩ := unpack_toFloat (n := n.toNat) (by omega)
    have habs : n.toNat = n.natAbs := by omega
    rw [nearest_of_nonneg (by omega), ← habs]
    exact ⟨hfull, hamount⟩

theorem lt_iff (x y : Float) : x < y ↔ x.toModel.unpack.lt y.toModel.unpack = true :=
  decide_eq_true_iff

theorem floatOfInt_lt_iff {a b : Int} (ha : Value.minInt ≤ a) (ha' : a ≤ Value.maxInt)
    (hb : Value.minInt ≤ b) (hb' : b ≤ Value.maxInt) :
    Value.floatOfInt a < Value.floatOfInt b ↔ nearest a < nearest b := by
  obtain ⟨hfull, hamount⟩ := unpack_floatOfInt ha ha'
  obtain ⟨hfull', hamount'⟩ := unpack_floatOfInt hb hb'
  rw [lt_iff]
  rw [UnpackedFloat.lt, compare_eq hfull hfull', hamount, hamount', beq_iff_eq,
    Option.some.injEq, compare_lt_iff_lt]
  omega

theorem floatOfInt_beq_iff {a b : Int} (ha : Value.minInt ≤ a) (ha' : a ≤ Value.maxInt)
    (hb : Value.minInt ≤ b) (hb' : b ≤ Value.maxInt) :
    (Value.floatOfInt a == Value.floatOfInt b) = true ↔ nearest a = nearest b := by
  obtain ⟨hfull, hamount⟩ := unpack_floatOfInt ha ha'
  obtain ⟨hfull', hamount'⟩ := unpack_floatOfInt hb hb'
  change (Value.floatOfInt a).toModel.unpack.beq (Value.floatOfInt b).toModel.unpack = true ↔ _
  rw [UnpackedFloat.beq, compare_eq hfull hfull', hamount, hamount', beq_iff_eq,
    Option.some.injEq, compare_eq_iff_eq]
  omega

section Sum

theorem isFinite_round (s : Sign) {m : Nat} {e : Int} (hm : 0 < m) (hlow : -1022 ≤ m.log2 + e)
    (hhigh : m.log2 + e ≤ 1022) :
    (Float.Model.pack (UnpackedFloat.round Format.binary64 s m e)).unpack.isFinite = true := by
  obtain ⟨m', e', hpos, heq, hlow', hhigh', hround⟩ := round_eq_finite s hm hlow
  rw [heq, unpack_pack s hpos hlow' hhigh' (by omega) (by omega)]
  rfl

theorem isFinite_normalize {m e : Int} (he : -52 ≤ e)
    (hbound : m.natAbs * 2 ^ (e + 52).toNat < 2 ^ 128) :
    (Float.Model.pack (UnpackedFloat.normalize Format.binary64 m e .positive)).unpack.isFinite =
      true := by
  have hround (s : Sign) {k : Nat} (hk : k = m.natAbs) (hpos : 0 < k) :
      (Float.Model.pack (UnpackedFloat.round Format.binary64 s k e)).unpack.isFinite = true := by
    have hlog : k.log2 + (e + 52).toNat < 128 := by
      refine (Nat.pow_lt_pow_iff_right (by omega : 1 < 2)).mp ?_
      rw [Nat.pow_add]
      exact (Nat.mul_le_mul_right _ (Nat.log2_self_le hpos.ne')).trans_lt (hk ▸ hbound)
    exact isFinite_round s hpos (by omega) (by omega)
  unfold UnpackedFloat.normalize
  rcases lt_trichotomy m 0 with hneg | hzero | hpos
  · rw [compare_lt_iff_lt.mpr hneg]
    exact hround .negative (by omega) (by omega)
  · rw [compare_eq_iff_eq.mpr hzero]
    exact congrArg UnpackedFloat.isFinite (Full.zero .positive).unpack_pack
  · rw [compare_gt_iff_gt.mpr hpos]
    exact hround .positive (by omega) (by omega)

/-- Taking a number down to a lower exponent leaves its amount as it is. -/
theorem decreaseExponent_mul {m : Nat} {d e : Int} (hlow : -52 ≤ d) (hle : d ≤ e) :
    (decreaseExponent m e d).1 * 2 ^ (d + 52).toNat = m * 2 ^ (e + 52).toNat := by
  have hshift : (e - d).toNat + (d + 52).toNat = (e + 52).toNat := by omega
  rw [decreaseExponent, Nat.shiftLeft_eq, Nat.mul_assoc, ← Nat.pow_add, hshift]

theorem natAbs_apply (s : Sign) (m : Nat) : (s.apply m).natAbs = m := by
  cases s <;> simp [Sign.apply]

/-- The sum of two numbers that are small enough is finite. -/
theorem isFinite_add {x y : UnpackedFloat} (hx : Full x) (hy : Full y)
    (hbound : (amount x).natAbs + (amount y).natAbs < 2 ^ 128) :
    (Float.Model.pack (add Format.binary64 x y)).unpack.isFinite = true := by
  cases hx with
  | zero s =>
    cases hy with
    | zero t => cases s <;> cases t <;> rfl
    | finite t hn hlow hhigh hmin hmax =>
      exact congrArg UnpackedFloat.isFinite (Full.finite t hn hlow hhigh hmin hmax).unpack_pack
  | @finite s m d hm hmlow hmhigh hmmin hmmax =>
    cases hy with
    | zero t =>
      exact congrArg UnpackedFloat.isFinite (Full.finite s hm hmlow hmhigh hmmin hmmax).unpack_pack
    | @finite t n e hn hlow hhigh hmin hmax =>
      have hleast : -52 ≤ min d e := by omega
      refine isFinite_normalize hleast ?_
      rw [amount, amount, natAbs_apply, natAbs_apply,
        ← decreaseExponent_mul hleast (Int.min_le_left d e),
        ← decreaseExponent_mul hleast (Int.min_le_right d e), ← Nat.add_mul] at hbound
      refine Nat.lt_of_le_of_lt (Nat.mul_le_mul_right _ ?_) hbound
      refine (Int.natAbs_add_le _ _).trans ?_
      rw [natAbs_apply, natAbs_apply]
      exact Nat.le_refl _

/-- **The floating-point numbers of two integers of 64 bits have a finite sum.** -/
theorem isFinite_floatOfInt_add {a b : Int} (ha : Value.minInt ≤ a) (ha' : a ≤ Value.maxInt)
    (hb : Value.minInt ≤ b) (hb' : b ≤ Value.maxInt) :
    (Value.floatOfInt a + Value.floatOfInt b).isFinite = true := by
  have hbound {n : Int} (hlow : Value.minInt ≤ n) (hhigh : n ≤ Value.maxInt) :
      (nearest n * 2 ^ 52).natAbs < 2 ^ 127 := by
    unfold Value.minInt at hlow
    unfold Value.maxInt at hhigh
    have hlog : n.natAbs.log2 < 64 := by
      rcases Nat.eq_zero_or_pos n.natAbs with hzero | hpos
      · rw [hzero, Nat.log2_zero]
        omega
      · exact (Nat.log2_lt hpos.ne').mpr (by omega)
    have hpow : 2 ^ (n.natAbs.log2 + 1) ≤ 2 ^ 64 := Nat.pow_le_pow_right (by omega) hlog
    have hnearest := nearestNat_le n.natAbs
    rw [Int.natAbs_mul, natAbs_nearest]
    change nearestNat n.natAbs * 2 ^ 52 < _
    omega
  obtain ⟨hfull, hamount⟩ := unpack_floatOfInt ha ha'
  obtain ⟨hfull', hamount'⟩ := unpack_floatOfInt hb hb'
  refine isFinite_add hfull hfull' ?_
  rw [hamount, hamount']
  have := hbound ha ha'
  have := hbound hb hb'
  omega

end Sum

end WorkflowGraph.Binary64
