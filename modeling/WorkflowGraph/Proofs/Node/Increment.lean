import WorkflowGraph.Proofs.Node.Writes
import WorkflowGraph.Proofs.Shape.ReadBack

/-!
# Adding to a number

A passthrough reads the number that a field holds and writes the sum after all its other writes
(`PassthroughSpec.exists_sum_of_update`). Where a field has a name without a dot, the sum is what is
read next, so that visit after visit adds the same number (`PassthroughSpec.summed`).
-/

set_option autoImplicit false

namespace WorkflowGraph

open Activity

namespace Update

theorem last?_append (front back : List (String × Value)) (field : String) :
    (Update.mk (front ++ back)).last? field =
      ((Update.mk back).last? field).or ((Update.mk front).last? field) := by
  unfold last?
  rw [List.reverse_append, List.find?_append, Option.map_or]

end Update

namespace Value

/-- Whether an integer is a signed one of 64 bits. -/
def Signed (n : Int) : Prop := minInt ≤ n ∧ n ≤ maxSigned

instance (n : Int) : Decidable (Signed n) :=
  inferInstanceAs (Decidable (minInt ≤ n ∧ n ≤ maxSigned))

/-- The sums on the way to a signed total lie between the first and the last of them. -/
theorem Signed.add_of_total {a d : Int} {k : Nat} (ha : Signed a)
    (htotal : Signed (a + (k + 1 : Nat) * d)) : Signed (a + d) := by
  unfold Signed at *
  have hk : (0 : Int) ≤ k := Int.natCast_nonneg k
  rw [Int.natCast_succ, Int.add_mul, Int.one_mul] at htotal
  rcases Int.le_total 0 d with hpos | hneg
  · have := Int.mul_nonneg hk hpos
    omega
  · have := Int.mul_nonpos_of_nonneg_of_nonpos hk hneg
    omega

end Value

namespace PassthroughSpec

open Value

variable {id field : String} {s : State} {delta : Number}

/-- The number that is left of a number when another one has been added to it a number of times;
nothing where a sum is not a number any more. -/
def summed (delta : Value) : Nat → Value → Option Value
  | 0, a => some a
  | n + 1, a => (sum? a delta).bind (summed delta n)

theorem isNumber_of_sum? {a b c : Value} (h : sum? a b = some c) : c.isNumber = true := by
  unfold sum? at h
  dsimp only at h
  split at h
  · next v hv =>
    cases h
    split at hv
    · split at hv
      · cases hv
        rfl
      · cases hv
    · cases hv
  · split at h
    · cases h
      rfl
    · cases h

theorem operand?_of_isNumber {a : Value} (h : a.isNumber = true) : operand? (some a) = some a := by
  cases a with
  | int n => rfl
  | float x => rfl
  | _ => cases h

/-- The sum of signed integers is exact as long as it is one. -/
theorem sum?_int {m k : Int} (hm : Signed m) (hk : Signed k) (hsum : Signed (m + k)) :
    sum? (.int m) (.int k) = some (.int (m + k)) := by
  have hrange : (decide (Value.minInt ≤ m + k) && decide (m + k ≤ Value.maxSigned)) = true := by
    simp [hsum.1, hsum.2]
  unfold sum? Value.signed?
  simp only [hm.2, hk.2, if_true, hrange]

/-- Adding an integer `n` times is adding its `n`-fold, as long as the total is a signed integer. By
induction on the number of times. -/
theorem summed_int {m k : Int} (hm : Signed m) (hk : Signed k) (n : Nat)
    (htotal : Signed (m + n * k)) : summed (.int k) n (.int m) = some (.int (m + n * k)) := by
  induction n generalizing m with
  | zero => simp [summed]
  | succ n ih =>
    have hsum := hm.add_of_total htotal
    have hstep : m + (n + 1 : Nat) * k = m + k + n * k := by
      rw [Int.natCast_succ, Int.add_mul, Int.one_mul]
      omega
    rw [hstep] at htotal ⊢
    rw [summed, sum?_int hm hk hsum, Option.bind_some, ih hsum htotal]

/-- What is written to a field by additions is what has been read before all of them, and one
addition to it. By induction on the additions. -/
theorem last?_increments {spec : List (String × Number)} {writes : List (String × Value)}
    (h : increments id s spec = .ok writes) (honly : ∀ p ∈ spec, p.1 = field → p.2 = delta) :
    (∀ v, (Update.mk writes).last? field = some v →
      increased id field (s.at? field) delta = .ok v) ∧
    ((field, delta) ∈ spec → ∃ v, (Update.mk writes).last? field = some v) := by
  induction spec generalizing writes with
  | nil =>
    cases h
    exact ⟨by rintro _ ⟨⟩, fun hmem => absurd hmem List.not_mem_nil⟩
  | cons p rest ih =>
    obtain ⟨name, number⟩ := p
    obtain ⟨hfirst, hrest⟩ := List.forall_mem_cons.1 honly
    unfold increments at h
    split at h
    · cases h
    · cases h
    · next v more hv hmore =>
      cases h
      obtain ⟨hwritten, hsome⟩ := ih hmore hrest
      have hsplit := Update.last?_append [(name, v)] more field
      rw [List.singleton_append] at hsplit
      rw [hsplit]
      cases hlast : (Update.mk more).last? field with
      | some w =>
        rw [Option.some_or]
        refine ⟨?_, fun _ => ⟨w, rfl⟩⟩
        rintro _ ⟨⟩
        exact hwritten w hlast
      | none =>
        rw [Option.none_or]
        by_cases hname : name = field
        · subst hname
          have hnumber : number = delta := hfirst rfl
          subst hnumber
          have hown : (Update.mk [(name, v)]).last? name = some v := by simp [Update.last?]
          rw [hown]
          refine ⟨?_, fun _ => ⟨v, rfl⟩⟩
          rintro _ ⟨⟩
          exact hv
        · have hother : (Update.mk [(name, v)]).last? field = none := by
            simp [Update.last?, hname]
          rw [hother]
          refine ⟨by rintro _ ⟨⟩, fun hmem => ?_⟩
          rcases List.mem_cons.1 hmem with heq | hmem
          · exact absurd (congrArg Prod.fst heq).symm hname
          · obtain ⟨w, hw⟩ := hsome hmem
            rw [hlast] at hw
            cases hw

/-- What an update of a passthrough writes last to a field that is added to once is the content of
the field after the addition. -/
theorem exists_increased_of_update {spec : PassthroughSpec} {u : Update}
    (h : spec.update id s = .ok u) (hmem : (field, delta) ∈ spec.increment)
    (honly : ∀ p ∈ spec.increment, p.1 = field → p.2 = delta) :
    ∃ b, increased id field (s.at? field) delta = .ok b ∧ u.last? field = some b := by
  unfold update at h
  dsimp only at h
  cases hadded : increments id s spec.increment with
  | error e =>
    rw [hadded] at h
    cases h
  | ok added =>
    rw [hadded] at h
    cases h
    obtain ⟨hwritten, hsome⟩ := last?_increments hadded honly
    obtain ⟨b, hb⟩ := hsome hmem
    exact ⟨b, hwritten b hb, by rw [Update.last?_append, hb, Option.some_or]⟩

/-- **An update of a passthrough writes the sum last**: of the number that the field is read as, and
of the one that is added to it. -/
theorem exists_sum_of_update {spec : PassthroughSpec} {u : Update}
    (h : spec.update id s = .ok u) (hmem : (field, delta) ∈ spec.increment)
    (honly : ∀ p ∈ spec.increment, p.1 = field → p.2 = delta) {a : Value}
    (ha : s.at? field = some a) (hnumber : a.isNumber = true) :
    ∃ b, sum? a delta.value = some b ∧ u.last? field = some b := by
  obtain ⟨b, hincreased, hlast⟩ := exists_increased_of_update h hmem honly
  refine ⟨b, ?_, hlast⟩
  unfold increased at hincreased
  rw [ha, operand?_of_isNumber hnumber] at hincreased
  dsimp only at hincreased
  split at hincreased
  · next c hsum =>
    cases hincreased
    exact hsum
  · cases hincreased

end PassthroughSpec

end WorkflowGraph
