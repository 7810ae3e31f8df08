import WorkflowGraph.Proofs.Graph.Retry

/-!
# How often and how late a node is retried

A node that is retried has one attempt more than it has retries, except with the largest number of
retries, where the word of 64 bits turns over and one attempt is left. The delay before a retry
doubles from one retry to the next and ends at the longest delay of the policy
(`RetryPolicy.nanos_delay_of_lt`). Retries are counted in words of 32 bits: when such a word turns
over, the delays start again with the first one (`RetryPolicy.factor_le_factor_iff`).
-/

set_option autoImplicit false

namespace WorkflowGraph

namespace NodePolicy

theorem maxAttempts_of_retry {p : NodePolicy} (hretry : p.onError = .retry) (retries : Nat) :
    p.maxAttempts retries = (p.maxRetries.getD retries + 1) % 2 ^ 64 := by
  unfold maxAttempts
  rw [hretry]
  rfl

/-- There is an attempt more than there are retries, unless that is more than a word can hold. -/
theorem maxAttempts_eq_iff {p : NodePolicy} (hretry : p.onError = .retry) {retries : Nat}
    (hword : p.maxRetries.getD retries < 2 ^ 64) :
    p.maxAttempts retries = p.maxRetries.getD retries + 1 ↔
      p.maxRetries.getD retries ≠ 2 ^ 64 - 1 := by
  rw [maxAttempts_of_retry hretry]
  omega

end NodePolicy

namespace RetryPolicy

variable {p : RetryPolicy} {a b : Nat}

theorem factor_of_lt (h : a < 32) : factor a = 2 ^ a := by
  unfold factor
  dsimp only
  rw [Nat.mod_eq_of_lt (h.trans (by decide)), if_pos h]
  rfl

theorem factor_of_le (h : 32 ≤ a % 2 ^ 32) : factor a = 2 ^ 32 - 1 := by
  unfold factor
  exact if_neg (Nat.not_lt.mpr h)

theorem factor_mod (a : Nat) : factor (a % 2 ^ 32) = factor a := by
  unfold factor
  rw [show Nat.pow 2 32 = 2 ^ 32 from rfl, Nat.mod_mod]

/-- Factors grow with the numbers that are left of the retries in a word of 32 bits, up to the
largest one. -/
theorem factor_le_factor_iff : factor a ≤ factor b ↔ a % 2 ^ 32 ≤ b % 2 ^ 32 ∨ 32 ≤ b % 2 ^ 32 := by
  have hsmall {n : Nat} (hn : n % 2 ^ 32 < 32) :
      factor n = 2 ^ (n % 2 ^ 32) ∧ factor n ≤ 2 ^ 31 := by
    rw [← factor_mod, factor_of_lt hn]
    exact ⟨rfl, Nat.pow_le_pow_right (by omega) (by omega)⟩
  rcases Nat.lt_or_ge (a % 2 ^ 32) 32 with ha | ha <;>
    rcases Nat.lt_or_ge (b % 2 ^ 32) 32 with hb | hb
  · rw [(hsmall ha).1, (hsmall hb).1, Nat.pow_le_pow_iff_right (by omega)]
    omega
  · have := (hsmall ha).2
    rw [factor_of_le hb]
    omega
  · have := (hsmall hb).2
    rw [factor_of_le ha]
    omega
  · rw [factor_of_le ha, factor_of_le hb]
    omega

theorem nanos_delay (p : RetryPolicy) (a : Nat) : (p.delay a).nanos =
    min (min (p.backoffBase.nanos * factor a) Duration.longest.nanos) p.backoffMax.nanos := rfl

/-- **The first retries double the delay**, until it is the longest one. -/
theorem nanos_delay_of_lt (p : RetryPolicy) (h : a < 32) : (p.delay a).nanos =
    min (min (p.backoffBase.nanos * 2 ^ a) Duration.longest.nanos) p.backoffMax.nanos := by
  rw [nanos_delay, factor_of_lt h]

theorem nanos_delay_le (p : RetryPolicy) (a : Nat) : (p.delay a).nanos ≤ p.backoffMax.nanos :=
  Nat.min_le_right _ _

/-- Delays are in the order of their factors. -/
theorem delay_le_delay_iff : (∀ p : RetryPolicy, (p.delay a).nanos ≤ (p.delay b).nanos) ↔
    factor a ≤ factor b := by
  constructor
  · intro h
    have hfine := h ⟨0, ⟨1⟩, Duration.longest⟩
    have hroom (n : Nat) : factor n ≤ Duration.longest.nanos := by
      have hmax : factor n ≤ 2 ^ 32 - 1 := by
        rw [← factor_of_le (a := 32) (by decide), factor_le_factor_iff]
        exact .inr (by decide)
      exact hmax.trans (by decide)
    rw [nanos_delay, nanos_delay, Nat.one_mul, Nat.one_mul, Nat.min_eq_left (hroom a),
      Nat.min_eq_left (hroom b), Nat.min_eq_left (hroom a), Nat.min_eq_left (hroom b)] at hfine
    exact hfine
  · intro h p
    have hproduct : p.backoffBase.nanos * factor a ≤ p.backoffBase.nanos * factor b :=
      Nat.mul_le_mul_left _ h
    rw [nanos_delay, nanos_delay]
    omega

end RetryPolicy

open RetryPolicy

/-- **The arithmetic of retries.** A node that is retried has an attempt more than retries just
where their number is not the largest word; with that number it has a single attempt. No delay is
longer than the longest one, and the first ones double. No policy has a delay that is shorter than
an earlier one just where the retries have not turned over in a word of 32 bits in between, or
have come to the largest factor again. -/
theorem retry_arithmetic {p : NodePolicy} (hretry : p.onError = .retry) {retries : Nat}
    (hword : p.maxRetries.getD retries < 2 ^ 64) :
    (p.maxAttempts retries = p.maxRetries.getD retries + 1 ↔
      p.maxRetries.getD retries ≠ 2 ^ 64 - 1) ∧
    (p.maxRetries.getD retries = 2 ^ 64 - 1 → ∀ (f : NodeFrame) (b : Behaviour) (s : State)
      (scope : Scope) (resume : Option Value), f.policy = p →
      scope.config.retry.maxRetries = retries → f.Due s resume →
      f.execute b s scope resume = f.attempts b s scope resume 1 [] 0) ∧
    (∀ (q : RetryPolicy) (a : Nat), (q.delay a).nanos ≤ q.backoffMax.nanos ∧
      (a < 32 → (q.delay a).nanos =
        min (min (q.backoffBase.nanos * 2 ^ a) Duration.longest.nanos) q.backoffMax.nanos)) ∧
    ∀ a b : Nat, a ≤ b →
      ((∀ q : RetryPolicy, (q.delay a).nanos ≤ (q.delay b).nanos) ↔
        a % 2 ^ 32 ≤ b % 2 ^ 32 ∨ 32 ≤ b % 2 ^ 32) := by
  refine ⟨p.maxAttempts_eq_iff hretry hword, ?_, fun q a => ⟨q.nanos_delay_le a,
    q.nanos_delay_of_lt⟩, fun a b _ => delay_le_delay_iff.trans factor_le_factor_iff⟩
  rintro hlargest f b s scope resume rfl rfl hdue
  have hturned : (2 ^ 64 - 1 + 1) % 2 ^ 64 - 1 = 0 := by decide
  rw [hdue.execute, NodePolicy.maxAttempts_of_retry hretry, hlargest, hturned]

/-- A node with two retries of its own has three attempts. -/
theorem retry_arithmetic_two :
    NodePolicy.maxAttempts ⟨.retry, some 2, none, [], []⟩ 5 = 3 ∧
    ∀ q : RetryPolicy, (q.delay 3).nanos ≤ (q.delay 40).nanos := by
  have hword : (some 2).getD 5 < 2 ^ 64 := by decide
  have h := retry_arithmetic (p := ⟨.retry, some 2, none, [], []⟩) rfl hword
  exact ⟨h.1.mpr (by decide), (h.2.2.2 3 40 (by decide)).mpr (.inl (by decide))⟩

/-- Where words turn over: a node has fewer attempts than retries, and a delay is shorter than the
one before. -/
theorem retry_arithmetic_turns_over :
    NodePolicy.maxAttempts ⟨.retry, some 18446744073709551615, none, [], []⟩ 3 = 0 ∧
    ((ofRetries 3).delay 4294967296).nanos < ((ofRetries 3).delay 4294967295).nanos := by
  decide

end WorkflowGraph
