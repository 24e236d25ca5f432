import Mathlib

namespace Double

def roundEven (x : ℚ) : ℤ :=
  if x - ⌊x⌋ < 1 / 2 then ⌊x⌋
  else if 1 / 2 < x - ⌊x⌋ then ⌊x⌋ + 1
  else if ⌊x⌋ % 2 = 0 then ⌊x⌋ else ⌊x⌋ + 1

def ulp (x : ℚ) : ℚ := 2 ^ (Int.log 2 x - 52)

def roundDouble (x : ℚ) : ℚ := roundEven (x / ulp x) * ulp x

def ceilDiv (n d : ℕ) : ℤ := ⌈roundDouble (n / d)⌉

theorem roundEven_intCast (k : ℤ) : roundEven k = k := by
  rw [roundEven, Int.floor_intCast, sub_self, if_pos (by norm_num)]

theorem abs_roundEven_sub (x : ℚ) : |(roundEven x : ℚ) - x| ≤ 1 / 2 := by
  have hlow := Int.floor_le x
  have hhigh := Int.lt_floor_add_one x
  unfold roundEven
  split_ifs <;> push_cast <;> rw [abs_le] <;> constructor <;> linarith

theorem ulp_pos (x : ℚ) : 0 < ulp x := zpow_pos (by norm_num) _

theorem two_pow_mul_ulp_le {x : ℚ} (hx : 0 < x) : 2 ^ 52 * ulp x ≤ x := by
  have hlog : (2 : ℚ) ^ Int.log 2 x ≤ x := by
    exact_mod_cast Int.zpow_log_le_self (by norm_num) hx
  have hsplit : (2 : ℚ) ^ 52 * ulp x = 2 ^ Int.log 2 x := by
    rw [ulp, ← zpow_natCast, ← zpow_add₀ (by norm_num)]
    congr 1
    norm_num
  rw [hsplit]
  exact hlog

theorem abs_roundDouble_sub {x : ℚ} (hx : 0 < x) : |roundDouble x - x| ≤ x / 2 ^ 53 := by
  have hulp := ulp_pos x
  have hfactor : roundDouble x - x = (roundEven (x / ulp x) - x / ulp x) * ulp x := by
    rw [roundDouble, sub_mul, div_mul_cancel₀ _ hulp.ne']
  have hhalf := abs_roundEven_sub (x / ulp x)
  have hle := two_pow_mul_ulp_le hx
  calc |roundDouble x - x| = |(roundEven (x / ulp x) : ℚ) - x / ulp x| * ulp x := by
        rw [hfactor, abs_mul, abs_of_pos hulp]
    _ ≤ 1 / 2 * ulp x := mul_le_mul_of_nonneg_right hhalf hulp.le
    _ ≤ x / 2 ^ 53 := by linarith

theorem roundDouble_natCast {k : ℕ} (hk : k < 2 ^ 53) : roundDouble k = k := by
  rcases Nat.eq_zero_or_pos k with rfl | hpos
  · simp [roundDouble, roundEven]
  have hx : (0 : ℚ) < k := by exact_mod_cast hpos
  have hlog : Int.log 2 (k : ℚ) < 53 := by
    rw [← Int.lt_zpow_iff_log_lt (by decide) hx]
    exact_mod_cast hk
  obtain ⟨e, he⟩ : ∃ e : ℕ, Int.log 2 (k : ℚ) - 52 = -e :=
    ⟨(52 - Int.log 2 (k : ℚ)).toNat, by omega⟩
  have hscaled : (k : ℚ) / ulp k = ((k * 2 ^ e : ℕ) : ℤ) := by
    rw [ulp, he, zpow_neg, zpow_natCast, div_inv_eq_mul]
    push_cast
    ring
  rw [roundDouble, hscaled, roundEven_intCast, ← hscaled, div_mul_cancel₀ _ (ulp_pos _).ne']

theorem abs_roundDouble_div_sub_lt {n d : ℕ} (hn : 0 < n) (hd : 0 < d) (hbound : n < 2 ^ 53) :
    |roundDouble (n / d) - n / d| < 1 / d := by
  have hn' : (0 : ℚ) < n := by exact_mod_cast hn
  have hd' : (0 : ℚ) < d := by exact_mod_cast hd
  have hsmall : (n : ℚ) / 2 ^ 53 < 1 := by
    rw [div_lt_one (by positivity)]
    exact_mod_cast hbound
  calc |roundDouble (n / d) - n / d| ≤ n / d / 2 ^ 53 := abs_roundDouble_sub (div_pos hn' hd')
    _ = n / 2 ^ 53 / d := div_right_comm ..
    _ < 1 / d := div_lt_div_of_pos_right hsmall hd'

theorem ceilDiv_eq {n d q : ℕ} (hd : 0 < d) (hn : n < 2 ^ 53) (hlow : q * d < n + d)
    (hhigh : n ≤ q * d) : ceilDiv n d = q := by
  have hd' : (0 : ℚ) < d := by exact_mod_cast hd
  rcases Nat.eq_or_lt_of_le hhigh with heq | hlt
  · have hq : q < 2 ^ 53 := by nlinarith
    have hexact : (n : ℚ) / d = q := by
      rw [heq, Nat.cast_mul, mul_div_cancel_right₀ _ hd'.ne']
    rw [ceilDiv, hexact, roundDouble_natCast hq, Int.ceil_natCast]
  · have hpos : 0 < n := by
      rcases Nat.eq_zero_or_pos n with rfl | hpos
      · have hq : q = 0 := by
          by_contra hq
          have := Nat.le_mul_of_pos_left d (Nat.pos_of_ne_zero hq)
          omega
        rw [hq, Nat.zero_mul] at hlt
        exact absurd hlt (Nat.lt_irrefl 0)
      · exact hpos
    have herror := abs_lt.mp (abs_roundDouble_div_sub_lt hpos hd hn)
    have habove : ((q : ℚ) - 1) + 1 / d ≤ n / d := by
      rw [← sub_nonneg]
      have hcast : (q : ℚ) * d + 1 ≤ n + d := by exact_mod_cast hlow
      have hdiff : (n : ℚ) / d - ((q - 1) + 1 / d) = (n + d - (q * d + 1)) / d := by
        field_simp
        ring
      rw [hdiff]
      exact div_nonneg (by linarith) hd'.le
    have hbelow : (n : ℚ) / d + 1 / d ≤ q := by
      rw [← add_div, div_le_iff₀ hd']
      exact_mod_cast hlt
    rw [ceilDiv, Int.ceil_eq_iff]
    constructor
    · push_cast
      linarith [herror.1]
    · push_cast
      linarith [herror.2]

end Double
