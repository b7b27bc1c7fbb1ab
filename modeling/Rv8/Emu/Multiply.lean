import Mathlib.Tactic.Ring
import Rv8.Emu.Arith
/-!
# High words of products

`alu.h` computes the high word of a product from products of half words and two carries,
and gives signed products their sign afterwards. On words of an even width this is the
high word.
-/

namespace Rv8.Emu

/-! ## Carries -/

section Carry
variable {n : Nat}

theorem toNat_ofBit (hn : 0 < n) (b : Bool) : (ofBit n b).toNat = if b then 1 else 0 := by
  have h1 : 1 < 2 ^ n := Nat.one_lt_two_pow (by omega)
  cases b with
  | false => exact BitVec.toNat_zero
  | true => exact Nat.mod_eq_of_lt h1

/-- The test of a sum against a summand is its carry. -/
theorem toNat_add_carry (hn : 0 < n) (x y : BitVec n) :
    (ofBit n (x + y < x)).toNat * 2 ^ n + (x + y).toNat = x.toNat + y.toNat := by
  have hx := x.isLt
  have hy := y.isLt
  have hlt : decide (x + y < x) = decide ((x.toNat + y.toNat) % 2 ^ n < x.toNat) :=
    decide_eq_decide.2 (by rw [BitVec.lt_def, BitVec.toNat_add])
  rw [toNat_ofBit hn, BitVec.toNat_add, hlt]
  generalize 2 ^ n = N at *
  by_cases h : x.toNat + y.toNat < N
  · rw [Nat.mod_eq_of_lt h, if_neg (by simp)]
    omega
  · have hm : (x.toNat + y.toNat) % N = x.toNat + y.toNat - N := by
      rw [Nat.mod_eq_sub_mod (by omega), Nat.mod_eq_of_lt (by omega)]
    rw [hm, if_pos (by simp; omega)]
    omega

end Carry

/-! ## The product of half words -/

section Wide
variable {n : Nat}

theorem two_pow_half (hn : n / 2 + n / 2 = n) : 2 ^ n = 2 ^ (n / 2) * 2 ^ (n / 2) := by
  rw [← Nat.pow_add, hn]

theorem toNat_and_mask (hn : n / 2 + n / 2 = n) (hpos : 0 < n) (x : BitVec n) :
    (x &&& ((1 <<< (n / 2)) - 1 : BitVec n)).toNat = x.toNat % 2 ^ (n / 2) := by
  have hlt : 2 ^ (n / 2) < 2 ^ n := Nat.pow_lt_pow_right (by decide) (by omega)
  have hone : (1 : BitVec n).toNat = 1 := Nat.mod_eq_of_lt (Nat.one_lt_two_pow (by omega))
  have hpow : 0 < 2 ^ (n / 2) := Nat.two_pow_pos _
  have hshl : ((1 <<< (n / 2) : Nat) : BitVec n).toNat = 2 ^ (n / 2) := by
    rw [Nat.one_shiftLeft]
    exact Nat.mod_eq_of_lt hlt
  have hmask : ((1 <<< (n / 2)) - 1 : BitVec n).toNat = 2 ^ (n / 2) - 1 := by
    rw [BitVec.toNat_sub_of_le (by rw [BitVec.le_def, hshl, hone]; exact hpow), hshl, hone]
  rw [BitVec.toNat_and, hmask, Nat.and_two_pow_sub_one_eq_mod]

/-- The high and the low word of `z3:z0` with `z1` and `z2` added in the middle. -/
theorem wide_sum (hn : n / 2 + n / 2 = n) (hpos : 0 < n) (z0 z1 z2 z3 : BitVec n)
    (hb : z3.toNat * 2 ^ n + (z1.toNat + z2.toNat) * 2 ^ (n / 2) + z0.toNat < 2 ^ n * 2 ^ n) :
    (z3 + ((z1 + z2) >>> (n / 2)) + (ofBit n (z1 + z2 < z1) <<< (n / 2)) +
      ofBit n (z0 + ((z1 + z2) <<< (n / 2)) < z0)).toNat * 2 ^ n + (z0 + ((z1 + z2) <<< (n / 2))).toNat =
      z3.toNat * 2 ^ n + (z1.toNat + z2.toNat) * 2 ^ (n / 2) + z0.toNat := by
  have hsq := two_pow_half hn
  have hmid := toNat_add_carry hpos z1 z2
  have hlow := toNat_add_carry hpos z0 ((z1 + z2) <<< (n / 2))
  have hshl : ((z1 + z2) <<< (n / 2)).toNat = (z1 + z2).toNat % 2 ^ (n / 2) * 2 ^ (n / 2) := by
    rw [BitVec.toNat_shiftLeft, Nat.shiftLeft_eq]
    conv_lhs => rw [hsq]
    exact Nat.mul_mod_mul_right ..
  have hdiv := Nat.div_add_mod (z1 + z2).toNat (2 ^ (n / 2))
  -- the high word before it is cut to the width
  have hsum : (z3.toNat + (z1 + z2).toNat / 2 ^ (n / 2) + (ofBit n (z1 + z2 < z1)).toNat * 2 ^ (n / 2) +
      (ofBit n (z0 + ((z1 + z2) <<< (n / 2)) < z0)).toNat) * 2 ^ n + (z0 + ((z1 + z2) <<< (n / 2))).toNat =
      z3.toNat * 2 ^ n + (z1.toNat + z2.toNat) * 2 ^ (n / 2) + z0.toNat := by
    rw [← hmid]
    rw [hshl] at hlow
    generalize (ofBit n (z0 + ((z1 + z2) <<< (n / 2)) < z0)).toNat = c2 at *
    generalize (ofBit n (z1 + z2 < z1)).toNat = c1 at *
    generalize (z0 + ((z1 + z2) <<< (n / 2))).toNat = lo at *
    generalize (z1 + z2).toNat = z4 at *
    generalize z4 / 2 ^ (n / 2) = q at *
    generalize z4 % 2 ^ (n / 2) = r at *
    rw [hsq] at *
    generalize 2 ^ (n / 2) = B at *
    calc (z3.toNat + q + c1 * B + c2) * (B * B) + lo
        = z3.toNat * (B * B) + (q + c1 * B) * (B * B) + (c2 * (B * B) + lo) := by ring
      _ = z3.toNat * (B * B) + (q + c1 * B) * (B * B) + (z0.toNat + r * B) := by rw [hlow]
      _ = z3.toNat * (B * B) + (c1 * (B * B) + (B * q + r)) * B + z0.toNat := by ring
      _ = z3.toNat * (B * B) + (c1 * (B * B) + z4) * B + z0.toNat := by rw [hdiv]
  have hhi (z4 b c : BitVec n) : (z3 + (z4 >>> (n / 2)) + (b <<< (n / 2)) + c).toNat =
      (z3.toNat + z4.toNat / 2 ^ (n / 2) + b.toNat * 2 ^ (n / 2) + c.toNat) % 2 ^ n := by
    simp only [BitVec.toNat_add, BitVec.toNat_ushiftRight, BitVec.toNat_shiftLeft, Nat.shiftRight_eq_div_pow, Nat.shiftLeft_eq,
      Nat.mod_add_mod, Nat.add_mod_mod]
  rw [hhi, Nat.mod_eq_of_lt (Nat.lt_of_mul_lt_mul_right (a := 2 ^ n) (by omega)), hsum]

theorem toNat_mul_half {x y : BitVec n} {a b B : Nat} (hsq : 2 ^ n = B * B) (hx : x.toNat = a) (hy : y.toNat = b) (ha : a < B) (hb : b < B) :
    (x * y).toNat = a * b := by
  rw [BitVec.toNat_mul, hx, hy, hsq]
  exact Nat.mod_eq_of_lt (Nat.mul_lt_mul'' ha hb)

theorem mulWide_toNat (hn : n / 2 + n / 2 = n) (hpos : 0 < n) (x y : BitVec n) :
    (mulWide x y).1.toNat * 2 ^ n + (mulWide x y).2.toNat = x.toNat * y.toNat := by
  have hsq := two_pow_half hn
  have hpow : 0 < 2 ^ (n / 2) := Nat.two_pow_pos _
  have hlow (z : BitVec n) : (z &&& ((1 <<< (n / 2)) - 1 : BitVec n)).toNat = z.toNat % 2 ^ (n / 2) := toNat_and_mask hn hpos z
  have hdiv (z : BitVec n) : z.toNat / 2 ^ (n / 2) < 2 ^ (n / 2) := Nat.div_lt_of_lt_mul (hsq ▸ z.isLt)
  have hhigh (z : BitVec n) : (z >>> (n / 2) &&& ((1 <<< (n / 2)) - 1 : BitVec n)).toNat = z.toNat / 2 ^ (n / 2) := by
    rw [toNat_and_mask hn hpos, BitVec.toNat_ushiftRight, Nat.shiftRight_eq_div_pow]
    exact Nat.mod_eq_of_lt (hdiv z)
  have hmod (z : BitVec n) : z.toNat % 2 ^ (n / 2) < 2 ^ (n / 2) := Nat.mod_lt _ hpow
  have h0 := toNat_mul_half hsq (hlow x) (hlow y) (hmod x) (hmod y)
  have h1 := toNat_mul_half hsq (hhigh x) (hlow y) (hdiv x) (hmod y)
  have h2 := toNat_mul_half hsq (hlow x) (hhigh y) (hmod x) (hdiv y)
  have h3 := toNat_mul_half hsq (hhigh x) (hhigh y) (hdiv x) (hdiv y)
  have hxy : x.toNat * y.toNat = x.toNat / 2 ^ (n / 2) * (y.toNat / 2 ^ (n / 2)) * 2 ^ n +
      (x.toNat / 2 ^ (n / 2) * (y.toNat % 2 ^ (n / 2)) + x.toNat % 2 ^ (n / 2) * (y.toNat / 2 ^ (n / 2))) * 2 ^ (n / 2) +
        x.toNat % 2 ^ (n / 2) * (y.toNat % 2 ^ (n / 2)) := by
    conv_lhs => rw [← Nat.div_add_mod x.toNat (2 ^ (n / 2)), ← Nat.div_add_mod y.toNat (2 ^ (n / 2))]
    rw [hsq]
    ring
  have hlt : x.toNat * y.toNat < 2 ^ n * 2 ^ n := Nat.mul_lt_mul'' x.isLt y.isLt
  rw [hxy, ← h0, ← h1, ← h2, ← h3] at hlt ⊢
  exact wide_sum hn hpos _ _ _ _ hlt

end Wide
/-! ## Signs -/

section Signs
variable {n : Nat}

theorem magnitude_eq (x : BitVec n) : magnitude x = if x.slt 0 then -x else x := by
  unfold magnitude
  cases h : x.slt 0 with
  | false =>
    show (~~~0#n + 1#n) ^^^ (x - 0#n) = x
    rw [← BitVec.neg_eq_not_add, BitVec.neg_zero, BitVec.zero_xor, BitVec.sub_zero]
  | true =>
    show (~~~1#n + 1#n) ^^^ (x - 1#n) = -x
    rw [← BitVec.neg_eq_not_add, BitVec.neg_one_eq_allOnes, BitVec.allOnes_xor, BitVec.not_sub_one_eq_not_add_one,
      ← BitVec.neg_eq_not_add]

theorem toNat_magnitude (x : BitVec n) : ((magnitude x).toNat : Int) = if x.slt 0 then -x.toInt else x.toInt := by
  have hx := x.isLt
  have hslt : x.slt 0 = decide (2 ^ n ≤ 2 * x.toNat) := by
    rw [BitVec.slt_eq_decide, BitVec.toInt_eq_toNat_cond, show (0 : BitVec n).toInt = 0 from BitVec.toInt_zero]
    refine decide_eq_decide.2 ?_
    split <;> omega
  rw [magnitude_eq, hslt, BitVec.toInt_eq_toNat_cond]
  by_cases hmsb : 2 ^ n ≤ 2 * x.toNat
  · simp only [decide_eq_true hmsb, if_true, if_neg (Nat.not_lt.2 hmsb)]
    rw [BitVec.toNat_neg, Nat.mod_eq_of_lt (by omega)]
    omega
  · simp only [decide_eq_false hmsb, if_pos (Nat.lt_of_not_le hmsb)]
    rfl

theorem negateHigh_zero (p : BitVec n × BitVec n) : negateHigh 0#n p = p.1 := by
  unfold negateHigh
  have hb : ofBit n (p.2 < p.2 - 0#n) = 0#n := by
    simp [ofBit]
  dsimp only
  rw [hb]
  show -0#n ^^^ (p.1 - 0#n) = p.1
  rw [BitVec.neg_zero, BitVec.zero_xor, BitVec.sub_zero]

/-- Negation takes a borrow from the high word unless the low word is 0. -/
theorem negateHigh_one (hpos : 0 < n) (p : BitVec n × BitVec n) :
    negateHigh 1#n p = BitVec.ofInt n (-((p.1.toNat : Int) * 2 ^ n + p.2.toNat) / 2 ^ n) := by
  have hlo := p.2.isLt
  have hone : (1#n).toNat = 1 := Nat.mod_eq_of_lt (Nat.one_lt_two_pow (by omega))
  have hpow : 1 < 2 ^ n := Nat.one_lt_two_pow (by omega)
  have hword : BitVec.ofInt n (p.1.toNat : Int) = p.1 := by
    rw [BitVec.ofInt_natCast, BitVec.ofNat_toNat, BitVec.setWidth_eq]
  have hxor : negateHigh 1#n p = ~~~(p.1 - ofBit n (p.2 < p.2 - 1#n)) := by
    show -1#n ^^^ (p.1 - ofBit n (p.2 < p.2 - 1#n)) = _
    rw [BitVec.neg_one_eq_allOnes, BitVec.allOnes_xor]
  have hborrow : decide (p.2 < p.2 - 1#n) = decide (p.2.toNat = 0) := by
    refine decide_eq_decide.2 ?_
    rw [BitVec.lt_def, BitVec.toNat_sub, hone]
    generalize 2 ^ n = N at *
    by_cases hz : p.2.toNat = 0
    · rw [hz, Nat.mod_eq_of_lt (by omega)]
      omega
    · rw [show N - 1 + p.2.toNat = p.2.toNat - 1 + N by omega, Nat.add_mod_right, Nat.mod_eq_of_lt (by omega)]
      omega
  have hN : (0 : Int) < 2 ^ n := by exact_mod_cast Nat.two_pow_pos n
  rw [hxor, hborrow]
  by_cases hz : p.2.toNat = 0
  · have hdiv : -((p.1.toNat : Int) * 2 ^ n + p.2.toNat) / 2 ^ n = -(p.1.toNat : Int) := by
      rw [hz, Nat.cast_zero, Int.add_zero, ← Int.neg_mul, Int.mul_ediv_cancel _ (by omega)]
    rw [decide_eq_true hz, hdiv, BitVec.ofInt_neg, hword]
    show ~~~(p.1 - 1#n) = -p.1
    rw [BitVec.not_sub_one_eq_not_add_one, ← BitVec.neg_eq_not_add]
  · have hdiv : -((p.1.toNat : Int) * 2 ^ n + p.2.toNat) / 2 ^ n = -(p.1.toNat : Int) - 1 := by
      have hsplit : -((p.1.toNat : Int) * 2 ^ n + p.2.toNat) = (2 ^ n - p.2.toNat) + (-(p.1.toNat : Int) - 1) * 2 ^ n := by ring
      have hlo' : (p.2.toNat : Int) < 2 ^ n := by exact_mod_cast hlo
      rw [hsplit, Int.add_mul_ediv_right _ _ (by omega), Int.ediv_eq_zero_of_lt (by omega) (by omega), Int.zero_add]
    rw [decide_eq_false hz, hdiv, Int.sub_eq_add_neg, BitVec.ofInt_add, BitVec.ofInt_neg, hword]
    show ~~~(p.1 - 0#n) = -p.1 + BitVec.ofInt n (-1)
    rw [BitVec.sub_zero, BitVec.not_eq_neg_add, BitVec.sub_eq_add_neg, BitVec.ofInt_neg]
    rfl

/-- The high word of a product with the sign `neg`. -/
theorem negateHigh_eq (hn : n / 2 + n / 2 = n) (hpos : 0 < n) (neg : Bool) (x y : BitVec n) :
    negateHigh (ofBit n neg) (mulWide x y) =
      BitVec.ofInt n ((if neg then -((x.toNat : Int) * y.toNat) else (x.toNat : Int) * y.toNat) / 2 ^ n) := by
  have hwide : ((mulWide x y).1.toNat : Int) * 2 ^ n + (mulWide x y).2.toNat = (x.toNat : Int) * y.toNat := by
    exact_mod_cast mulWide_toNat hn hpos x y
  cases neg with
  | false =>
    show negateHigh 0#n _ = BitVec.ofInt n ((x.toNat : Int) * y.toNat / 2 ^ n)
    have hlo : ((mulWide x y).2.toNat : Int) < 2 ^ n := by exact_mod_cast (mulWide x y).2.isLt
    rw [negateHigh_zero, ← hwide, Int.add_comm, Int.add_mul_ediv_right _ _ (by omega), Int.ediv_eq_zero_of_lt (by omega) hlo,
      Int.zero_add, BitVec.ofInt_natCast, BitVec.ofNat_toNat, BitVec.setWidth_eq]
  | true =>
    show negateHigh 1#n _ = BitVec.ofInt n (-((x.toNat : Int) * y.toNat) / 2 ^ n)
    rw [negateHigh_one hpos, hwide]

theorem mulhu_eq (hn : n / 2 + n / 2 = n) (hpos : 0 < n) (x y : BitVec n) :
    mulhu x y = BitVec.ofNat n (x.toNat * y.toNat / 2 ^ n) := by
  have hlo := (mulWide x y).2.isLt
  rw [← mulWide_toNat hn hpos, Nat.add_comm, Nat.add_mul_div_right _ _ (Nat.two_pow_pos n), Nat.div_eq_of_lt hlo, Nat.zero_add,
    BitVec.ofNat_toNat, BitVec.setWidth_eq]
  rfl

theorem mulh_eq (hn : n / 2 + n / 2 = n) (hpos : 0 < n) (x y : BitVec n) :
    mulh x y = BitVec.ofInt n (x.toInt * y.toInt / 2 ^ n) := by
  have hsign : ofBit n (x.slt 0) ^^^ ofBit n (y.slt 0) = ofBit n (x.slt 0 ^^ y.slt 0) := by
    cases x.slt 0 <;> cases y.slt 0 <;> simp [ofBit]
  unfold mulh
  rw [hsign, negateHigh_eq hn hpos, toNat_magnitude, toNat_magnitude]
  cases x.slt 0 <;> cases y.slt 0 <;> simp

theorem mulhsu_eq (hn : n / 2 + n / 2 = n) (hpos : 0 < n) (x y : BitVec n) :
    mulhsu x y = BitVec.ofInt n (x.toInt * y.toNat / 2 ^ n) := by
  unfold mulhsu
  rw [negateHigh_eq hn hpos, toNat_magnitude]
  cases x.slt 0 <;> simp

theorem mulhsu_of_nonneg {x : BitVec n} (hx : x.slt 0 = false) (y : BitVec n) : mulhsu x y = mulhu x y := by
  unfold mulhsu
  rw [magnitude_eq, hx, if_neg (by simp)]
  exact negateHigh_zero _

/-- The high word of a negative product, from that of its magnitude. -/
theorem mulhsu_of_neg {x : BitVec 64} (hx : x.slt 0 = true) (y : BitVec 64) :
    mulhsu x y = (if x * y = 0 then 1 else 0) + ~~~mulhu (-x) y := by
  have habs := toNat_magnitude x
  rw [magnitude_eq, if_pos hx, if_pos hx] at habs
  have hint : x.toInt * y.toNat = -(((-x).toNat * y.toNat : Nat) : Int) := by
    rw [Nat.cast_mul, habs]
    ring
  have hlow : x * y = 0 ↔ (-x).toNat * y.toNat % 2 ^ 64 = 0 := by
    have hneg : x * y = -(-x * y) := by rw [BitVec.neg_mul, BitVec.neg_neg]
    rw [hneg, neg_eq_zero, ← BitVec.toNat_inj, BitVec.toNat_mul]
    rfl
  have hlt : (-x).toNat * y.toNat < 2 ^ 128 :=
    calc (-x).toNat * y.toNat < 2 ^ 64 * 2 ^ 64 := Nat.mul_lt_mul'' (-x).isLt y.isLt
      _ = 2 ^ 128 := by norm_num
  rw [mulhsu_eq rfl (by decide), mulhu_eq rfl (by decide), hint]
  simp only [hlow]
  generalize (-x).toNat * y.toNat = p at hlt ⊢
  apply BitVec.eq_of_toNat_eq
  rw [BitVec.toNat_ofInt, BitVec.toNat_add, BitVec.toNat_not, BitVec.toNat_ofNat]
  split
  · rw [show (1 : BitVec 64).toNat = 1 from rfl]
    omega
  · rw [show (0 : BitVec 64).toNat = 0 from rfl]
    omega

end Signs

end Rv8.Emu
