import Mathlib
import WorkflowGraph.Decimal.Shortest

/-!
# The shortest digits determine a number

The fewest digits that read back are searched for on finer and finer grids. A grid of seventeen
digits always has a decimal in the interval of a number, so the search ends with one
(`Decimal.mem_around_shortest`). The finite numbers that are not negative are counted by their
bits: the interval of one ends where the interval of the next one begins (`low_around_succ`), and
the end that two of them share belongs to the one with the even bits. So no decimal lies in two
intervals, and two numbers with the same shortest decimal have the same bits
(`Decimal.rank_eq_of_toRat_shortest_eq`).
-/

set_option autoImplicit false

namespace WorkflowGraph.Decimal

/-- The number that a decimal stands for. -/
def toRat (d : Decimal) : ℚ := d.digits * 10 ^ d.scale

theorem toRat_eq_zero_iff (d : Decimal) : d.toRat = 0 ↔ d.digits = 0 := by
  rw [toRat, mul_eq_zero, Nat.cast_eq_zero, or_iff_left (zpow_ne_zero _ (by norm_num))]

section Ratio

namespace Ratio

/-- The number that a fraction stands for. -/
def toRat (r : Ratio) : ℚ := r.num / r.den

theorem den_binary_pos (n : Nat) (e : Int) : 0 < (binary n e).den := by
  unfold binary
  split
  · exact Nat.two_pow_pos _
  · exact Nat.one_pos

theorem den_scale_pos {r : Ratio} (h : 0 < r.den) (e : Int) : 0 < (r.scale e).den := by
  unfold scale
  split
  · exact Nat.mul_pos h (Nat.pow_pos (by decide))
  · exact h

@[simp]
theorem toRat_binary (n : Nat) (e : Int) : (binary n e).toRat = n * 2 ^ e := by
  unfold binary toRat
  split
  · next h =>
    obtain ⟨k, rfl⟩ : ∃ k : Nat, e = -k := ⟨e.natAbs, by omega⟩
    simp [div_eq_mul_inv]
  · next h =>
    obtain ⟨k, rfl⟩ : ∃ k : Nat, e = k := ⟨e.toNat, by omega⟩
    simp

@[simp]
theorem toRat_scale (r : Ratio) (e : Int) : (r.scale e).toRat = r.toRat * 10 ^ e := by
  unfold scale toRat
  split
  · next h =>
    obtain ⟨k, rfl⟩ : ∃ k : Nat, e = -k := ⟨e.natAbs, by omega⟩
    simp [div_eq_mul_inv]
    ring
  · next h =>
    obtain ⟨k, rfl⟩ : ∃ k : Nat, e = k := ⟨e.toNat, by omega⟩
    simp [div_eq_mul_inv]
    ring

variable {r : Ratio}

/-- A grid's number is compared with a fraction on natural numbers only. -/
theorem num_le_iff (h : 0 < r.den) (n : Nat) (e : Int) :
    (r.scale (-e)).num ≤ n * (r.scale (-e)).den ↔ r.toRat ≤ n * 10 ^ e := by
  have hden : (0 : ℚ) < (r.scale (-e)).den := Nat.cast_pos.2 (den_scale_pos h _)
  rw [← div_le_iff₀ (zpow_pos (by norm_num) e), div_eq_mul_inv, ← zpow_neg, ← toRat_scale, toRat,
    div_le_iff₀ hden]
  exact_mod_cast Iff.rfl

theorem le_num_iff (h : 0 < r.den) (n : Nat) (e : Int) :
    n * (r.scale (-e)).den ≤ (r.scale (-e)).num ↔ n * 10 ^ e ≤ r.toRat := by
  have hden : (0 : ℚ) < (r.scale (-e)).den := Nat.cast_pos.2 (den_scale_pos h _)
  rw [← le_div_iff₀ (zpow_pos (by norm_num) e), div_eq_mul_inv, ← zpow_neg, ← toRat_scale, toRat,
    le_div_iff₀ hden]
  exact_mod_cast Iff.rfl

end Ratio

end Ratio

section Grid

namespace Interval

/-- What lies between the two ends, and the ends where they belong. -/
def Mem (i : Interval) (x : ℚ) : Prop :=
  if i.closed then i.low.toRat ≤ x ∧ x ≤ i.high.toRat else i.low.toRat < x ∧ x < i.high.toRat

theorem Mem.between {i : Interval} {x : ℚ} (h : i.Mem x) :
    i.low.toRat ≤ x ∧ x ≤ i.high.toRat := by
  unfold Mem at h
  split at h
  · exact h
  · exact ⟨h.1.le, h.2.le⟩

theorem mem_of_lt {i : Interval} {x : ℚ} (hlow : i.low.toRat < x) (hhigh : x < i.high.toRat) :
    i.Mem x := by
  unfold Mem
  split
  · exact ⟨hlow.le, hhigh.le⟩
  · exact ⟨hlow, hhigh⟩

theorem holds_iff {i : Interval} (hlow : 0 < i.low.den) (hhigh : 0 < i.high.den) (n : Nat)
    (scale : Int) : i.holds n scale = true ↔ i.Mem (n * 10 ^ scale) := by
  unfold holds Mem
  split
  · rw [Bool.and_eq_true, decide_eq_true_iff, decide_eq_true_iff, Ratio.num_le_iff hlow,
      Ratio.le_num_iff hhigh]
  · rw [Bool.and_eq_true, decide_eq_true_iff, decide_eq_true_iff, ← Nat.not_le, ← Nat.not_le,
      Ratio.le_num_iff hlow, Ratio.num_le_iff hhigh, not_le, not_le]

end Interval

/-- What is found on a grid lies on it and in the interval. -/
theorem holds_of_onGrid? {value : Ratio} {interval : Interval} {scale : Int} {d : Decimal}
    (h : onGrid? value interval scale = some d) :
    d.scale = scale ∧ interval.holds d.digits scale = true := by
  unfold onGrid? at h
  dsimp only at h
  split at h
  · cases h
  · next hlower _ =>
    cases h
    exact ⟨rfl, hlower⟩
  · next _ hupper =>
    cases h
    exact ⟨rfl, hupper⟩
  · next hlower hupper =>
    split_ifs at h <;> cases h
    all_goals first | exact ⟨rfl, hlower⟩ | exact ⟨rfl, hupper⟩

/-- Something is found on a grid where one of the two neighbours of the number lies in the
interval. -/
theorem exists_onGrid? {value : Ratio} {interval : Interval} {scale : Int} {floor : Nat}
    (hfloor : floor = (value.scale (-scale)).num / (value.scale (-scale)).den)
    (h : interval.holds floor scale = true ∨ interval.holds (floor + 1) scale = true) :
    ∃ d, onGrid? value interval scale = some d ∧ floor ≤ d.digits := by
  subst hfloor
  unfold onGrid?
  dsimp only
  split
  · next hlower hupper => simp [hlower, hupper] at h
  · exact ⟨_, rfl, Nat.le_refl _⟩
  · exact ⟨_, rfl, Nat.le_succ _⟩
  · split_ifs
    all_goals first | exact ⟨_, rfl, Nat.le_refl _⟩ | exact ⟨_, rfl, Nat.le_succ _⟩

/-- The search ends with what one of the grids gives, where some grid within its fuel gives
something. By induction on the fuel. -/
theorem exists_firstGrid {value : Ratio} {interval : Interval} {top : Int} {count : Nat}
    {d : Decimal} (h : onGrid? value interval (top - count) = some d) (hd : d.digits ≠ 0)
    {fuel start : Nat} (hstart : start ≤ count) (hfuel : count < start + fuel) :
    ∃ k : Nat, onGrid? value interval (top - k) =
        some (firstGrid value interval top fuel start) ∧
      (firstGrid value interval top fuel start).digits ≠ 0 := by
  induction fuel generalizing start with
  | zero => omega
  | succ fuel ih =>
    have hnext (hne : start ≠ count) := @ih (start + 1) (by omega) (by omega)
    unfold firstGrid
    split
    · next found hfound =>
      split
      · next hzero =>
        refine hnext ?_
        rintro rfl
        rw [h] at hfound
        cases hfound
        exact hd hzero
      · next hne => exact ⟨start, hfound, hne⟩
    · next hnone =>
      refine hnext ?_
      rintro rfl
      rw [h] at hnone
      cases hnone

end Grid

section Magnitude

/-- A positive number is at least the power of ten with as many zeros as it has digits behind the
first one. -/
theorem pow_length_toString_le {n : Nat} (h : 0 < n) : 10 ^ ((toString n).length - 1) ≤ n := by
  rw [Nat.toString_eq_repr, ← String.length_toList, Nat.toList_repr]
  rcases Nat.eq_zero_or_pos ((Nat.toDigits 10 n).length - 1) with hlength | hlength
  · rw [hlength]
    exact h
  · have hlong : ¬ (Nat.toDigits 10 n).length ≤ (Nat.toDigits 10 n).length - 1 := by omega
    rwa [Nat.length_toDigits_le_iff (by decide) hlength, Nat.not_lt] at hlong

/-- The zeros that are counted do not take the number over one. By induction on the fuel. -/
theorem zpow_search_le {r : Ratio} (hden : 0 < r.den) {fuel zeros : Nat}
    (hsmall : (10 : ℚ) ^ (-(zeros + fuel + 1 : Int)) ≤ r.toRat) :
    (10 : ℚ) ^ (magnitude.search r fuel zeros - 1) ≤ r.toRat := by
  induction fuel generalizing zeros with
  | zero =>
    refine le_of_eq_of_le (congrArg _ ?_) hsmall
    rw [magnitude.search]
    omega
  | succ fuel ih =>
    unfold magnitude.search
    split
    · next hfound =>
      have hone : 1 ≤ r.toRat * 10 ^ (zeros + 1) := by
        rw [Ratio.toRat, div_mul_eq_mul_div, le_div_iff₀ (Nat.cast_pos.2 hden), one_mul]
        exact_mod_cast hfound
      rw [show (-(zeros : Int) - 1) = -((zeros + 1 : Nat) : Int) by omega, zpow_neg, zpow_natCast,
        inv_le_iff_one_le_mul₀ (by positivity)]
      exact hone
    · refine ih (le_of_eq_of_le (congrArg _ ?_) hsmall)
      push_cast
      ring

/-- A number is at least the power of ten below its magnitude; only those too small for the search
are left out. -/
theorem zpow_magnitude_le {r : Ratio} (hden : 0 < r.den)
    (hsmall : (10 : ℚ) ^ (-401 : Int) ≤ r.toRat) : (10 : ℚ) ^ (magnitude r - 1) ≤ r.toRat := by
  unfold magnitude
  split
  · next hone =>
    have hpos : 0 < r.num / r.den := Nat.div_pos hone hden
    have hlength : 1 ≤ (toString (r.num / r.den)).length := by
      rw [Nat.toString_eq_repr, ← String.length_toList, Nat.toList_repr]
      exact Nat.length_toDigits_pos
    calc (10 : ℚ) ^ (((toString (r.num / r.den)).length : Int) - 1)
        = ((10 ^ ((toString (r.num / r.den)).length - 1) : Nat) : ℚ) := by
          rw [← Nat.cast_one, ← Nat.cast_sub hlength, zpow_natCast]
          push_cast
          rfl
      _ ≤ ((r.num / r.den : Nat) : ℚ) := Nat.cast_le.2 (pow_length_toString_le hpos)
      _ ≤ r.toRat := Nat.cast_div_le
  · exact zpow_search_le hden hsmall

end Magnitude

section Trim

@[simp]
theorem toRat_trim (d : Decimal) : (trim d).toRat = d.toRat := by
  have hgo (fuel : Nat) : ∀ d : Decimal, (trim.go fuel d).toRat = d.toRat := by
    induction fuel with
    | zero => exact fun _ => rfl
    | succ fuel ih =>
      intro d
      unfold trim.go
      split
      · next h =>
        have hdigits : d.digits = 10 * (d.digits / 10) := by omega
        rw [ih, toRat, toRat, zpow_add₀ (by norm_num)]
        conv => rhs; rw [hdigits]
        push_cast
        ring
      · rfl
  exact hgo 20 d

end Trim

section Ends

theorem two_zpow_eq (e : Int) : (2 : ℚ) ^ e = 2 * 2 ^ (e - 1) := by
  rw [← zpow_one_add₀ (by norm_num), add_sub_cancel]

/-- The number that a mantissa and an exponent stand for. -/
def Binary.toRat (b : Binary) : ℚ := b.mantissa * 2 ^ b.exponent

/-- Whether the neighbour below is only half as far away as the one above. -/
def Binary.Narrow (b : Binary) : Prop := b.mantissa = 2 ^ 52 ∧ -1074 < b.exponent

instance (b : Binary) : Decidable b.Narrow := inferInstanceAs (Decidable (_ ∧ _))

namespace Interval

theorem den_low_around_pos (b : Binary) : 0 < (around b).low.den := by
  unfold around
  dsimp only
  split <;> exact Ratio.den_binary_pos _ _

theorem den_high_around_pos (b : Binary) : 0 < (around b).high.den := Ratio.den_binary_pos _ _

theorem toRat_high_around (b : Binary) :
    (around b).high.toRat = b.toRat + 2 ^ (b.exponent - 1) := by
  change (Ratio.binary (2 * b.mantissa + 1) (b.exponent - 1)).toRat = _
  rw [Ratio.toRat_binary, Binary.toRat, two_zpow_eq b.exponent]
  push_cast
  ring

theorem toRat_low_around {b : Binary} (h : 0 < b.mantissa) :
    (around b).low.toRat = b.toRat - 2 ^ (b.exponent - if b.Narrow then 2 else 1) := by
  change (if b.Narrow then Ratio.binary (4 * b.mantissa - 1) (b.exponent - 2)
    else Ratio.binary (2 * b.mantissa - 1) (b.exponent - 1)).toRat = _
  split
  · have hpow : (2 : ℚ) ^ b.exponent = 4 * 2 ^ (b.exponent - 2) := by
      rw [two_zpow_eq b.exponent, two_zpow_eq (b.exponent - 1), show b.exponent - 1 - 1 = b.exponent - 2 by ring]
      ring
    rw [Ratio.toRat_binary, Binary.toRat, hpow, Nat.cast_sub (by omega)]
    push_cast
    ring
  · rw [Ratio.toRat_binary, Binary.toRat, two_zpow_eq b.exponent, Nat.cast_sub (by omega)]
    push_cast
    ring

theorem low_around_lt {b : Binary} (h : 0 < b.mantissa) : (around b).low.toRat < b.toRat := by
  rw [toRat_low_around h]
  exact sub_lt_self _ (zpow_pos (by norm_num) _)

theorem lt_high_around (b : Binary) : b.toRat < (around b).high.toRat := by
  rw [toRat_high_around]
  exact lt_add_of_pos_right _ (zpow_pos (by norm_num) _)

end Interval

end Ends

section Rank

namespace Binary

/-- The number with the given bits, its sign left out: the finite numbers that are not negative are
counted from zero. -/
def ofRank (n : Nat) : Binary :=
  if n / 2 ^ 52 = 0 then ⟨n % 2 ^ 52, -1074⟩
  else ⟨n % 2 ^ 52 + 2 ^ 52, ((n / 2 ^ 52 : Nat) : Int) - 1075⟩

theorem ofBits_eq_ofRank (bits : UInt64) : ofBits bits = ofRank (bits.toNat % 2 ^ 63) := by
  have hbiased : bits.toNat % 2 ^ 63 / 2 ^ 52 = bits.toNat / 2 ^ 52 % 2048 := by omega
  have hfraction : bits.toNat % 2 ^ 63 % 2 ^ 52 = bits.toNat % 2 ^ 52 := by omega
  rw [ofRank, hbiased, hfraction]
  rfl

variable (n : Nat)

theorem mantissa_ofRank_lt : (ofRank n).mantissa < 2 ^ 53 := by
  unfold ofRank
  split <;> dsimp only <;> omega

theorem le_exponent_ofRank : -1074 ≤ (ofRank n).exponent := by
  unfold ofRank
  split <;> dsimp only <;> omega

theorem mantissa_ofRank_pos {n : Nat} (h : 0 < n) : 0 < (ofRank n).mantissa := by
  unfold ofRank
  split <;> dsimp only <;> omega

theorem mantissa_ofRank_mod_two : (ofRank n).mantissa % 2 = n % 2 := by
  unfold ofRank
  split <;> dsimp only <;> omega

/-- The next number has the next mantissa, or the least mantissa and the next exponent. -/
theorem ofRank_succ :
    (ofRank (n + 1) = ⟨(ofRank n).mantissa + 1, (ofRank n).exponent⟩ ∧ ¬ (ofRank (n + 1)).Narrow) ∨
      ((ofRank n).mantissa = 2 ^ 53 - 1 ∧ ofRank (n + 1) = ⟨2 ^ 52, (ofRank n).exponent + 1⟩ ∧
        (ofRank (n + 1)).Narrow) := by
  unfold Narrow ofRank
  split_ifs <;> simp only [Binary.mk.injEq, and_true] <;> omega

end Binary

namespace Interval

/-- The interval of a number ends where the one of the next number begins. -/
theorem low_around_succ (n : Nat) :
    (around (Binary.ofRank (n + 1))).low.toRat = (around (Binary.ofRank n)).high.toRat := by
  rw [toRat_low_around (Binary.mantissa_ofRank_pos (Nat.succ_pos n)), toRat_high_around]
  rcases Binary.ofRank_succ n with ⟨hnext, hnarrow⟩ | ⟨hlast, hnext, hnarrow⟩
  · rw [if_neg hnarrow, hnext, Binary.toRat, Binary.toRat]
    dsimp only
    rw [two_zpow_eq (Binary.ofRank n).exponent]
    push_cast
    ring
  · rw [if_pos hnarrow, hnext, Binary.toRat, Binary.toRat, hlast]
    dsimp only
    rw [zpow_add_one₀ (by norm_num), show (Binary.ofRank n).exponent + 1 - 2 =
      (Binary.ofRank n).exponent - 1 by ring, two_zpow_eq (Binary.ofRank n).exponent]
    push_cast
    ring

theorem strictMono_high_around :
    StrictMono fun n => (around (Binary.ofRank n)).high.toRat := by
  refine strictMono_nat_of_lt_succ fun n => ?_
  rw [← low_around_succ]
  exact (low_around_lt (Binary.mantissa_ofRank_pos (Nat.succ_pos n))).trans (lt_high_around _)

theorem closed_around (n : Nat) : (around (Binary.ofRank n)).closed = true ↔ n % 2 = 0 := by
  rw [← Binary.mantissa_ofRank_mod_two n]
  exact decide_eq_true_iff

/-- **The intervals of two numbers have nothing in common.** Only the intervals of two neighbours
touch, and the end where they do belongs to the number with the even bits alone. -/
theorem not_mem_around_of_lt {m n : Nat} (h : m < n) {x : ℚ}
    (hm : (around (Binary.ofRank m)).Mem x) : ¬ (around (Binary.ofRank n)).Mem x := by
  intro hn
  obtain ⟨k, rfl⟩ := Nat.exists_eq_add_one_of_ne_zero (Nat.ne_zero_of_lt h)
  have hmk := strictMono_high_around.monotone (Nat.le_of_lt_succ h)
  have hlow := hn.between.1
  rw [low_around_succ] at hlow
  have hhigh : x = (around (Binary.ofRank m)).high.toRat := le_antisymm hm.between.2 (hmk.trans hlow)
  have heq : m = k := strictMono_high_around.injective (le_antisymm hmk (hlow.trans hm.between.2))
  subst heq
  have hmClosed : (around (Binary.ofRank m)).closed = true := by
    by_contra hopen
    rw [Mem, if_neg hopen, ← hhigh] at hm
    exact lt_irrefl _ hm.2
  have hnClosed : (around (Binary.ofRank (m + 1))).closed = true := by
    by_contra hopen
    rw [Mem, if_neg hopen, low_around_succ, ← hhigh] at hn
    exact lt_irrefl _ hn.1
  rw [closed_around] at hmClosed hnClosed
  omega

end Interval

end Rank

section Seventeen

/-- A number of 53 bits is at most that many halves of its last bit. -/
theorem Binary.toRat_lt {b : Binary} (h : b.mantissa < 2 ^ 53) :
    b.toRat < 2 ^ 54 * 2 ^ (b.exponent - 1) := by
  have hmantissa : (b.mantissa : ℚ) < 2 ^ 53 := by exact_mod_cast h
  have hhalf : (0 : ℚ) < 2 ^ (b.exponent - 1) := zpow_pos (by norm_num) _
  rw [Binary.toRat, two_zpow_eq b.exponent]
  linarith [mul_lt_mul_of_pos_right hmantissa hhalf]

/-- The nearer of the two neighbours on a grid lies in the interval of a number, where the grid is
finer than the last bit of the number, and twice as fine where the interval is narrow. -/
theorem Interval.mem_around_of_grid {b : Binary} {step : ℚ} {floor : Nat} (hpos : 0 < b.mantissa)
    (hfloor : floor * step ≤ b.toRat) (hnext : b.toRat < (floor + 1) * step)
    (hstep : step < 2 * 2 ^ (b.exponent - 1)) (hnarrow : b.Narrow → step < 2 ^ (b.exponent - 1)) :
    (around b).Mem (floor * step) ∨ (around b).Mem ((floor + 1) * step) := by
  by_cases hnear : (floor + 1) * step < b.toRat + 2 ^ (b.exponent - 1)
  · refine .inr (mem_of_lt ((low_around_lt hpos).trans hnext) ?_)
    rwa [toRat_high_around]
  · have hwide : ¬ b.Narrow := fun h => hnear (by linarith [hnarrow h])
    refine .inl (mem_of_lt ?_ (hfloor.trans_lt (lt_high_around b)))
    rw [toRat_low_around hpos, if_neg hwide]
    linarith

/-- **Seventeen digits always suffice.** Below the magnitude of a number that many places are finer
than its last bit. -/
theorem exists_onGrid?_seventeen {b : Binary} {top : Int} (hpos : 0 < b.mantissa)
    (hbits : b.mantissa < 2 ^ 53) (htop : (10 : ℚ) ^ (top - 1) ≤ b.toRat) :
    ∃ d, onGrid? (Ratio.binary b.mantissa b.exponent) (Interval.around b) (top - (17 : Nat)) =
      some d ∧ d.digits ≠ 0 := by
  obtain ⟨place, hplace⟩ : ∃ place, place = top - (17 : Nat) := ⟨_, rfl⟩
  obtain ⟨step, hstep⟩ : ∃ step, step = (10 : ℚ) ^ place := ⟨_, rfl⟩
  obtain ⟨half, hhalf⟩ : ∃ half, half = (2 : ℚ) ^ (b.exponent - 1) := ⟨_, rfl⟩
  have hfine : step * 10 ^ 16 ≤ b.toRat := by
    refine le_of_eq_of_le ?_ htop
    rw [hstep, ← zpow_natCast, ← zpow_add₀ (by norm_num), hplace]
    congr 1
    push_cast
    ring
  let value := Ratio.binary b.mantissa b.exponent
  have hden : 0 < value.den := Ratio.den_binary_pos _ _
  have hvalue : value.toRat = b.toRat := Ratio.toRat_binary _ _
  obtain ⟨floor, hfloor⟩ :
      ∃ floor, floor = (value.scale (-place)).num / (value.scale (-place)).den := ⟨_, rfl⟩
  have hlow : floor * step ≤ b.toRat := by
    rw [← hvalue, hstep, ← Ratio.le_num_iff hden, hfloor]
    exact Nat.div_mul_le_self _ _
  have hhigh : b.toRat < (floor + 1) * step := by
    rw [← hvalue, hstep, ← not_le, ← Nat.cast_add_one, ← Ratio.le_num_iff hden, hfloor, Nat.not_le]
    rw [Nat.mul_comm]
    exact Nat.lt_mul_div_succ _ (Ratio.den_scale_pos hden _)
  have hmem : (Interval.around b).Mem (floor * step) ∨
      (Interval.around b).Mem ((floor + 1) * step) := by
    have hlast := Binary.toRat_lt hbits
    rw [← hhalf] at hlast
    refine Interval.mem_around_of_grid hpos hlow hhigh (by rw [← hhalf]; linarith) fun hnarrow => ?_
    have hleast : b.toRat = 2 ^ 53 * half := by
      rw [Binary.toRat, hnarrow.1, two_zpow_eq b.exponent, hhalf]
      push_cast
      ring
    rw [← hhalf]
    linarith
  have hholds (n : Nat) := Interval.holds_iff (Interval.den_low_around_pos b)
    (Interval.den_high_around_pos b) n place
  have hgrid : (Interval.around b).holds floor place = true ∨
      (Interval.around b).holds (floor + 1) place = true := by
    rw [hholds, hholds, ← hstep, Nat.cast_add_one]
    exact hmem
  obtain ⟨d, hd, hdigits⟩ := exists_onGrid? hfloor hgrid
  refine ⟨d, hplace ▸ hd, fun hzero => ?_⟩
  have hnone : floor = 0 := by omega
  rw [hnone, Nat.cast_zero, zero_add, one_mul] at hhigh
  have hpositive : 0 < step := hstep ▸ zpow_pos (by norm_num) _
  linarith

end Seventeen

section Search

/-- No finite number other than zero is too small for its magnitude to be found. -/
theorem zpow_le_toRat_ofRank {n : Nat} (h : 0 < n) :
    (10 : ℚ) ^ (-401 : Int) ≤ (Binary.ofRank n).toRat := by
  have hmantissa : (1 : ℚ) ≤ (Binary.ofRank n).mantissa :=
    Nat.one_le_cast.2 (Binary.mantissa_ofRank_pos h)
  have hexponent := Binary.le_exponent_ofRank n
  calc (10 : ℚ) ^ (-401 : Int)
      ≤ 8 ^ (-401 : Int) := by
        rw [zpow_neg, zpow_neg]
        exact inv_anti₀ (by positivity) (zpow_le_zpow_left₀ (by decide) (by norm_num) (by norm_num))
    _ = 2 ^ (3 * -401 : Int) := by
        rw [zpow_mul]
        norm_num only
    _ ≤ 2 ^ (Binary.ofRank n).exponent := zpow_le_zpow_right₀ (by norm_num) (by omega)
    _ ≤ (Binary.ofRank n).toRat := le_mul_of_one_le_left (zpow_nonneg (by norm_num) _) hmantissa

/-- **The shortest decimal of a number reads back.** It lies in the interval of the number, and is
not zero. -/
theorem mem_around_shortest {bits : UInt64} (h : 0 < bits.toNat % 2 ^ 63) :
    (Interval.around (Binary.ofRank (bits.toNat % 2 ^ 63))).Mem (shortest bits).toRat ∧
      (shortest bits).toRat ≠ 0 := by
  rw [shortest, Binary.ofBits_eq_ofRank]
  obtain ⟨b, hb⟩ : ∃ b, b = Binary.ofRank (bits.toNat % 2 ^ 63) := ⟨_, rfl⟩
  have hpos : 0 < b.mantissa := hb ▸ Binary.mantissa_ofRank_pos h
  have hsmall : (10 : ℚ) ^ (-401 : Int) ≤ (Ratio.binary b.mantissa b.exponent).toRat := by
    rw [Ratio.toRat_binary, hb]
    exact zpow_le_toRat_ofRank h
  have htop := zpow_magnitude_le (Ratio.den_binary_pos _ _) hsmall
  rw [Ratio.toRat_binary] at htop
  obtain ⟨d, hd, hdigits⟩ :=
    exists_onGrid?_seventeen hpos (hb ▸ Binary.mantissa_ofRank_lt _) htop
  obtain ⟨k, hfound, hne⟩ := exists_firstGrid hd hdigits (by decide : 1 ≤ 17)
    (by decide : 17 < 1 + 18)
  obtain ⟨hscale, hholds⟩ := holds_of_onGrid? hfound
  rw [Interval.holds_iff (Interval.den_low_around_pos b) (Interval.den_high_around_pos b),
    ← hscale] at hholds
  rw [← hb]
  dsimp only
  rw [if_neg hpos.ne', toRat_trim]
  exact ⟨hholds, fun hzero => hne ((toRat_eq_zero_iff _).1 hzero)⟩

theorem shortest_of_rank_eq_zero {bits : UInt64} (h : bits.toNat % 2 ^ 63 = 0) :
    shortest bits = ⟨0, 0⟩ := by
  rw [shortest, Binary.ofBits_eq_ofRank, h]
  rfl

/-- **Numbers with one shortest decimal have the same bits**, apart from the sign. -/
theorem rank_eq_of_toRat_shortest_eq {x y : UInt64}
    (h : (shortest x).toRat = (shortest y).toRat) : x.toNat % 2 ^ 63 = y.toNat % 2 ^ 63 := by
  have hzero {z : UInt64} (hz : z.toNat % 2 ^ 63 = 0) : (shortest z).toRat = 0 := by
    rw [shortest_of_rank_eq_zero hz, toRat_eq_zero_iff]
  rcases Nat.eq_zero_or_pos (x.toNat % 2 ^ 63) with hx | hx
  · rcases Nat.eq_zero_or_pos (y.toNat % 2 ^ 63) with hy | hy
    · rw [hx, hy]
    · exact absurd (h.symm.trans (hzero hx)) (mem_around_shortest hy).2
  · rcases Nat.eq_zero_or_pos (y.toNat % 2 ^ 63) with hy | hy
    · exact absurd (h.trans (hzero hy)) (mem_around_shortest hx).2
    · have hmemX := (mem_around_shortest hx).1
      have hmemY := (mem_around_shortest hy).1
      rw [h] at hmemX
      rcases Nat.lt_trichotomy (x.toNat % 2 ^ 63) (y.toNat % 2 ^ 63) with hlt | heq | hgt
      · exact absurd hmemY (Interval.not_mem_around_of_lt hlt hmemX)
      · exact heq
      · exact absurd hmemX (Interval.not_mem_around_of_lt hgt hmemY)

end Search

end WorkflowGraph.Decimal
