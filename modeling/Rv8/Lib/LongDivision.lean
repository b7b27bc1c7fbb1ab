import Mathlib.Tactic.Ring
import Mathlib.Algebra.Order.Ring.Nat
/-!
# Long division

Digit by digit, from the highest one. Before each round the digits that are already
taken from the dividend are the quotient so far, times the divisor, and a remainder
below the divisor.
-/

namespace Rv8.Lib

/-- `n` digits in base `b` of `x` are still to come. -/
structure LongDivision (b x y n q r : Nat) : Prop where
  taken : x / b ^ n = q / b ^ n * y + r
  dvd : b ^ n ∣ q
  lt : r < y

namespace LongDivision

variable {b x y n q r : Nat}

theorem start (hx : x < b ^ n) (hy : 0 < y) : LongDivision b x y n 0 0 where
  taken := by simp [Nat.div_eq_of_lt hx]
  dvd := Nat.dvd_zero _
  lt := hy

/-- The digits taken so far, and the next one. -/
theorem div_pow (b x n : Nat) : x / b ^ n = b * (x / b ^ (n + 1)) + x / b ^ n % b := by
  rw [Nat.pow_succ, ← Nat.div_div_eq_div_mul]
  exact (Nat.div_add_mod _ b).symm

/-- The remainder with the next digit is at most the digits taken with it, so that it needs no more room than they do. -/
theorem remainder_le (h : LongDivision b x y (n + 1) q r) : b * r + x / b ^ n % b ≤ x / b ^ n := by
  have hr : r ≤ x / b ^ (n + 1) := h.taken ▸ Nat.le_add_left _ _
  calc b * r + x / b ^ n % b
      ≤ b * (x / b ^ (n + 1)) + x / b ^ n % b := Nat.add_le_add_right (Nat.mul_le_mul_left b hr) _
    _ = x / b ^ n := (div_pow b x n).symm

theorem round (hb : 0 < b) (h : LongDivision b x y (n + 1) q r) :
    LongDivision b x y n (q + (b * r + x / b ^ n % b) / y * b ^ n) ((b * r + x / b ^ n % b) % y) where
  taken := by
    obtain ⟨k, hk⟩ := h.dvd
    have hpow : 0 < b ^ n := Nat.pow_pos hb
    have hq : q / b ^ (n + 1) = k := by rw [hk, Nat.mul_div_cancel_left _ (Nat.pow_pos hb)]
    have hqn : q = b * k * b ^ n := by rw [hk]; ring
    have htaken := h.taken
    rw [hq] at htaken
    have hdigits := div_pow b x n
    generalize x / b ^ n % b = d at hdigits ⊢
    rw [Nat.add_mul_div_right _ _ hpow, hqn, Nat.mul_div_cancel _ hpow, hdigits, htaken]
    have hdm := Nat.div_add_mod (b * r + d) y
    calc b * (k * y + r) + d
        = b * k * y + (b * r + d) := by ring
      _ = b * k * y + (y * ((b * r + d) / y) + (b * r + d) % y) := by rw [hdm]
      _ = (b * k + (b * r + d) / y) * y + (b * r + d) % y := by ring
  dvd := by
    have hdvd : b ^ n ∣ b ^ (n + 1) := Nat.pow_dvd_pow b (Nat.le_succ n)
    exact Nat.dvd_add (hdvd.trans h.dvd) (Nat.dvd_mul_left _ _)
  lt := Nat.mod_lt _ (Nat.zero_lt_of_lt h.lt)

theorem finish (h : LongDivision b x y 0 q r) : x = q * y + r ∧ r < y := by
  have htaken := h.taken
  rw [Nat.pow_zero, Nat.div_one, Nat.div_one] at htaken
  exact ⟨htaken, h.lt⟩

end LongDivision

end Rv8.Lib
