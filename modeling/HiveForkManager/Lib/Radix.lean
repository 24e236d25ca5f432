import Mathlib

namespace Radix

variable {base multiplier : ℕ}

/-- The digits that stand for `n * multiplier + carry`, and what is carried out of them. -/
def mulAdd (base multiplier : ℕ) : List ℕ → ℕ → List ℕ × ℕ
  | [], carry => ([], carry)
  | d :: ds, carry =>
    let rest := mulAdd base multiplier ds ((carry + multiplier * d) / base)
    ((carry + multiplier * d) % base :: rest.1, rest.2)

@[simp] theorem length_mulAdd (ds : List ℕ) :
    ∀ carry, (mulAdd base multiplier ds carry).1.length = ds.length := by
  induction ds with
  | nil => exact fun _ ↦ rfl
  | cons d ds ih =>
    intro carry
    rw [mulAdd, List.length_cons, List.length_cons, ih]

theorem add_mul_lt {d carry : ℕ} (hd : d < base) (hcarry : carry < multiplier) :
    carry + multiplier * d < base * multiplier := by
  calc
    carry + multiplier * d < multiplier + multiplier * d := Nat.add_lt_add_right hcarry _
    _ = multiplier * (d + 1) := by rw [Nat.mul_add, Nat.mul_one, Nat.add_comm]
    _ ≤ multiplier * base := Nat.mul_le_mul_left _ hd
    _ = base * multiplier := Nat.mul_comm ..

theorem digits_mul_add (hbase : 1 < base) (hmultiplier : 0 < multiplier) (n : ℕ) : ∀ carry,
    Nat.digits base (n * multiplier + carry) =
      (mulAdd base multiplier (Nat.digits base n) carry).1 ++
        Nat.digits base (mulAdd base multiplier (Nat.digits base n) carry).2 := by
  induction n using Nat.strong_induction_on with
  | _ n ih =>
    intro carry
    rcases Nat.eq_zero_or_pos n with rfl | hn
    · rw [Nat.zero_mul, Nat.zero_add, Nat.digits_zero]
      rfl
    · have hpos : 0 < n * multiplier + carry :=
        Nat.add_pos_left (Nat.mul_pos hn hmultiplier) _
      have hsplit : n * multiplier + carry =
          (carry + multiplier * (n % base)) + base * (n / base * multiplier) := by
        conv_lhs => rw [← Nat.mod_add_div n base]
        rw [Nat.add_mul, Nat.mul_assoc, Nat.mul_comm (n % base)]
        omega
      have hmod : (n * multiplier + carry) % base = (carry + multiplier * (n % base)) % base := by
        rw [hsplit, Nat.add_mul_mod_self_left]
      have hdiv : (n * multiplier + carry) / base =
          n / base * multiplier + (carry + multiplier * (n % base)) / base := by
        rw [hsplit, Nat.add_mul_div_left _ _ (Nat.zero_lt_of_lt hbase), Nat.add_comm]
      rw [Nat.digits_def' hbase hpos, hmod, hdiv, ih _ (Nat.div_lt_self hn hbase),
        Nat.digits_def' hbase hn, mulAdd, List.cons_append]

theorem pow_le_pow_of_ratio {base' k l : ℕ} (hk : 0 < k) (hbase' : 0 < base')
    (hratio : base ^ k ≤ base' ^ l) (n : ℕ) : base ^ n ≤ base' ^ (n * l / k + 1) := by
  have hexponent : n * l ≤ (n * l / k + 1) * k := by
    have hdiv := Nat.div_add_mod (n * l) k
    have hmod := Nat.mod_lt (n * l) hk
    rw [Nat.add_mul, Nat.one_mul, Nat.mul_comm (n * l / k)]
    omega
  have hpow : (base ^ n) ^ k ≤ (base' ^ (n * l / k + 1)) ^ k := by
    calc
      (base ^ n) ^ k = (base ^ k) ^ n := by rw [← Nat.pow_mul, ← Nat.pow_mul, Nat.mul_comm]
      _ ≤ (base' ^ l) ^ n := Nat.pow_le_pow_left hratio n
      _ = base' ^ (n * l) := by rw [← Nat.pow_mul, Nat.mul_comm]
      _ ≤ base' ^ ((n * l / k + 1) * k) := Nat.pow_le_pow_right hbase' hexponent
      _ = (base' ^ (n * l / k + 1)) ^ k := Nat.pow_mul ..
  exact (Nat.pow_le_pow_iff_left hk.ne').mp hpow

end Radix
