import WorkflowGraph.Condition.Eval
import WorkflowGraph.Proofs.Binary64.Nearest

/-!
# Comparing integers

Two integers that are signed are compared exactly. Where one of them is larger than that, both are
rounded to 53 bits first, so that integers close to each other are taken for equal. The six
comparisons always agree on one order of the two (`Comparison.holds_int`); it is the order of the
integers unless the rounding makes two of them equal (`Value.seen_eq_compare_iff`).
-/

set_option autoImplicit false

namespace WorkflowGraph

open Binary64

namespace Comparison

/-- What a comparison says about two integers. -/
def Relates : Comparison → Int → Int → Prop
  | .lt, a, b => a < b
  | .le, a, b => a ≤ b
  | .gt, a, b => b < a
  | .ge, a, b => b ≤ a
  | .eq, a, b => a = b
  | .ne, a, b => a ≠ b

/-- The orders of two operands in which a comparison holds. -/
def admits : Comparison → Ordering → Bool
  | .lt, o => o.isLT
  | .le, o => o.isLE
  | .gt, o => o.isGT
  | .ge, o => o.isGE
  | .eq, o => o.isEq
  | .ne, o => o.isNe

theorem admits_compare_iff (op : Comparison) (a b : Int) :
    op.admits (compare a b) = true ↔ op.Relates a b := by
  rcases lt_trichotomy a b with hlt | heq | hgt
  · rw [compare_lt_iff_lt.mpr hlt]
    cases op <;> simp [admits, Relates] <;> omega
  · rw [compare_eq_iff_eq.mpr heq]
    cases op <;> simp [admits, Relates] <;> omega
  · rw [compare_gt_iff_gt.mpr hgt]
    cases op <;> simp [admits, Relates] <;> omega

/-- A comparison that holds in an order is told from one that does not: an order is known by what is
admitted in it. -/
theorem eq_of_admits {o o' : Ordering} (h : ∀ op : Comparison, op.admits o = op.admits o') :
    o = o' := by
  have hlt := h .lt
  have heq := h .eq
  cases o <;> cases o' <;> first
    | rfl
    | exact absurd hlt (by decide)
    | exact absurd heq (by decide)

end Comparison

namespace Value

variable {a b c : Int}

/-- The order in which two integers are seen: signed ones as they are, others as the numbers of 53
bits that are nearest to them. -/
def seen (a b : Int) : Ordering :=
  if a ≤ maxSigned ∧ b ≤ maxSigned then compare a b else compare (nearest a) (nearest b)

/-- Whether two integers are seen in their own order. -/
def Told (a b : Int) : Prop :=
  (a ≤ maxSigned ∧ b ≤ maxSigned) ∨ a = b ∨ nearest a ≠ nearest b

instance (a b : Int) : Decidable (Told a b) :=
  inferInstanceAs (Decidable ((a ≤ maxSigned ∧ b ≤ maxSigned) ∨ a = b ∨ nearest a ≠ nearest b))

/-- An integer that a value can hold. -/
def Held (n : Int) : Prop := minInt ≤ n ∧ n ≤ maxInt

instance (n : Int) : Decidable (Held n) := inferInstanceAs (Decidable (minInt ≤ n ∧ n ≤ maxInt))

theorem signed?_int (n : Int) : (int n).signed? = if n ≤ maxSigned then some n else none := rfl

theorem compareNumbers?_int (ha : Held a) (hb : Held b) :
    (int a).compareNumbers? (int b) = some (seen a b) := by
  unfold compareNumbers? seen
  rw [signed?_int, signed?_int]
  by_cases hsigned : a ≤ maxSigned ∧ b ≤ maxSigned
  · rw [if_pos hsigned.1, if_pos hsigned.2, if_pos hsigned]
  · have hlt := floatOfInt_lt_iff ha.1 ha.2 hb.1 hb.2
    have hgt := floatOfInt_lt_iff hb.1 hb.2 ha.1 ha.2
    have heq := floatOfInt_beq_iff ha.1 ha.2 hb.1 hb.2
    have hfloat : (if floatOfInt a < floatOfInt b then some Ordering.lt
        else if (floatOfInt a == floatOfInt b) = true then some .eq
        else if floatOfInt b < floatOfInt a then some .gt else none) =
        some (compare (nearest a) (nearest b)) := by
      rw [if_congr hlt rfl rfl, if_congr heq rfl rfl, if_congr hgt rfl rfl]
      rcases lt_trichotomy (nearest a) (nearest b) with h | h | h
      · rw [if_pos h, compare_lt_iff_lt.mpr h]
      · rw [if_neg (by omega), if_pos h, compare_eq_iff_eq.mpr h]
      · rw [if_neg (by omega), if_neg (by omega), if_pos h, compare_gt_iff_gt.mpr h]
    rw [if_neg hsigned, ← hfloat]
    split
    · next m n hm hn =>
      exfalso
      split_ifs at hm hn with h h'
      exact hsigned ⟨h, h'⟩
    · rfl

/-- **The order in which integers are seen is their own unless rounding makes them equal.** Rounding
never turns an order round. -/
theorem seen_eq_compare_iff : seen a b = compare a b ↔ Told a b := by
  unfold seen Told
  split_ifs with hsigned
  · exact ⟨fun _ => .inl hsigned, fun _ => rfl⟩
  · rcases lt_trichotomy a b with hlt | heq | hgt
    · have hle := nearest_mono hlt.le
      rw [compare_lt_iff_lt.mpr hlt, compare_lt_iff_lt]
      omega
    · subst heq
      exact ⟨fun _ => .inr (.inl rfl), fun _ => by rw [compare_eq_iff_eq.mpr rfl,
        compare_eq_iff_eq.mpr rfl]⟩
    · have hle := nearest_mono hgt.le
      rw [compare_gt_iff_gt.mpr hgt, compare_gt_iff_gt]
      omega

/-- Three integers of which the middle one is seen as equal to both others. -/
theorem seen_eq_trans_iff (hab : seen a b = .eq) (hbc : seen b c = .eq) :
    seen a c = .eq ↔ b ≤ maxSigned ∨ maxSigned < a ∨ maxSigned < c ∨ a = c := by
  unfold seen at *
  split_ifs at * with h₁ h₂ h₃ <;> rw [compare_eq_iff_eq] at * <;> grind

end Value

namespace Comparison

/-- **The six comparisons of two integers** go by the one order in which these are seen. -/
theorem holds_int (op : Comparison) {a b : Int} (ha : Value.Held a) (hb : Value.Held b) :
    op.holds (some (.int a)) (some (.int b)) = op.admits (Value.seen a b) := by
  have horder : (Value.int a).order? (.int b) = some (Value.seen a b) :=
    Value.compareNumbers?_int ha hb
  have hequals : (Value.int a).equals (.int b) = (Value.seen a b).isEq := by
    change ((Value.int a).compareNumbers? (.int b) == some .eq) = _
    rw [Value.compareNumbers?_int ha hb]
    cases Value.seen a b <;> rfl
  unfold holds
  dsimp only
  rw [horder, hequals]
  cases op <;> cases Value.seen a b <;> rfl

end Comparison

namespace Condition

variable {fields : Fields} {lhs mid rhs : Expr} {a b c : Int}

theorem holds_compare (source : String) (op : Comparison) (ha : lhs.eval fields = some (.int a))
    (hb : rhs.eval fields = some (.int b)) (hheld : Value.Held a) (hheld' : Value.Held b) :
    holds ⟨source, .compare op lhs rhs⟩ fields = op.admits (Value.seen a b) := by
  unfold holds Expr.eval
  rw [ha, hb, op.holds_int hheld hheld']
  rfl

/-- **Integers in a condition.** All six comparisons of two integers agree on one order, so that
exactly one of the integers being less, equal and greater holds. It is the order of the integers
just where these are told apart: signed integers always are. Equality is handed on by an integer
between two others, except where only that one is larger than a signed integer. -/
theorem compares_integers (source : String) (ha : lhs.eval fields = some (.int a))
    (hb : mid.eval fields = some (.int b)) (hc : rhs.eval fields = some (.int c))
    (hheld : Value.Held a) (hheld' : Value.Held b) (hheld'' : Value.Held c) :
    ((∀ op : Comparison, holds ⟨source, .compare op lhs mid⟩ fields = true ↔ op.Relates a b) ↔
      Value.Told a b) ∧
    (∃! op : Comparison, op ∈ [.lt, .eq, .gt] ∧
      holds ⟨source, .compare op lhs mid⟩ fields = true) ∧
    (holds ⟨source, .compare .eq lhs mid⟩ fields = true →
      holds ⟨source, .compare .eq mid rhs⟩ fields = true →
      (holds ⟨source, .compare .eq lhs rhs⟩ fields = true ↔
        b ≤ Value.maxSigned ∨ Value.maxSigned < a ∨ Value.maxSigned < c ∨ a = c)) := by
  refine ⟨?_, ?_, ?_⟩
  · rw [← Value.seen_eq_compare_iff]
    constructor
    · intro h
      refine Comparison.eq_of_admits fun op => Bool.eq_iff_iff.mpr ?_
      rw [op.admits_compare_iff, ← h op, holds_compare source op ha hb hheld hheld']
    · intro h op
      rw [holds_compare source op ha hb hheld hheld', h, op.admits_compare_iff]
  · have hone : ∃! op : Comparison, op ∈ [.lt, .eq, .gt] ∧ op.admits (Value.seen a b) = true := by
      cases Value.seen a b with
      | lt => exact ⟨.lt, by decide, fun op h => by cases op <;> simp [Comparison.admits] at h ⊢⟩
      | eq => exact ⟨.eq, by decide, fun op h => by cases op <;> simp [Comparison.admits] at h ⊢⟩
      | gt => exact ⟨.gt, by decide, fun op h => by cases op <;> simp [Comparison.admits] at h ⊢⟩
    simpa only [holds_compare source _ ha hb hheld hheld'] using hone
  · rw [holds_compare source .eq ha hb hheld hheld', holds_compare source .eq hb hc hheld' hheld'',
      holds_compare source .eq ha hc hheld hheld'']
    simp only [Comparison.admits, Ordering.isEq_iff_eq_eq]
    exact Value.seen_eq_trans_iff

/-- The largest signed integer, and one above it that rounding keeps apart from it. -/
theorem compares_integers_large :
    holds ⟨"a < b", .compare .lt (.path ["a"]) (.path ["b"])⟩
      [("a", .int 9223372036854775807), ("b", .int 9223372036854779904)] = true ∧
    holds ⟨"a == b", .compare .eq (.path ["a"]) (.path ["b"])⟩
      [("a", .int 9223372036854775807), ("b", .int 9223372036854779904)] = false := by
  have hleft : (Expr.path ["a"]).eval [("a", .int 9223372036854775807),
      ("b", .int 9223372036854779904)] = some (.int 9223372036854775807) := rfl
  have hright : (Expr.path ["b"]).eval [("a", .int 9223372036854775807),
      ("b", .int 9223372036854779904)] = some (.int 9223372036854779904) := rfl
  have hrelates (source : String) := (compares_integers source hleft hright hright (by decide)
    (by decide) (by decide)).1.mpr (by decide)
  have hlt : (9223372036854775807 : Int) < 9223372036854779904 := by decide
  exact ⟨(hrelates "a < b" .lt).mpr hlt,
    Bool.eq_false_iff.mpr fun h => hlt.ne ((hrelates "a == b" .eq).mp h)⟩

/-- Integers that are equal in a condition and yet are not: two neighbours above the signed ones;
and two signed integers that are both equal to the next one after them. -/
theorem unequal_integers_compare_equal :
    ((Condition.parse "a == b").toOption.map fun c =>
      c.holds [("a", .int 9223372036854775808), ("b", .int 9223372036854775809)]) = some true ∧
    ((Condition.parse "a == b and b == c and a != c").toOption.map fun c =>
      c.holds [("a", .int 9223372036854775806), ("b", .int 9223372036854775808),
        ("c", .int 9223372036854775807)]) = some true := by
  decide +kernel

end Condition

end WorkflowGraph
