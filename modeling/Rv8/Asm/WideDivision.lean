import Rv8.Asm.WideExact
import Rv8.Lib.LongDivision
/-!
# 128-bit division

`operator/` and `operator%` on `u128` run the same loop over the bits of the dividend.
Each round shifts the remainder, takes in a bit, and takes the divisor away if it is
not larger. A remainder that is still to be shifted is below 2^127, whatever the
divisor is.
-/

namespace Rv8.Asm

open Rv8.Lib Wide

variable (build : Build) (x y : Wide)

structure Quotient where
  (q r : Wide)

/-- The body of the loop. -/
def divRound (i : Nat) (s : Quotient) : Quotient :=
  let shamt := BitVec.ofNat 32 i
  let r := shl s.r build 1
  let r := or r (and (U128.shr x build shamt) (ofU64 1))
  let d := ofBool (U128.ge r y)
  let r := sub r (and y (neg d))
  ⟨or s.q (shl d build shamt), r⟩

/-- What `k` rounds leave of `for (int i = 127; i >= 0; i--)`. -/
def divRounds : Nat → Quotient
  | 0 => ⟨ofU64 0, ofU64 0⟩
  | k + 1 => divRound build x y (127 - k) (divRounds k)

def U128.div : Wide := if eq y (ofU64 0) then ⟨-1, -1⟩ else (divRounds build x y 128).q

def U128.mod : Wide := if eq y (ofU64 0) then x else (divRounds build x y 128).r

/-! ## One round -/

section Round
variable {build x y} {i : Nat} {s : Quotient}

theorem toNat_amount_ofNat (hi : i < 128) : (amount (BitVec.ofNat 32 i)).toNat = i := by
  have h := toNat_amount (BitVec.ofNat 32 i)
  rw [BitVec.toInt_ofNat', Int.bmod_eq_of_le (by omega) (by omega)] at h
  omega

/-- The remainder, shifted, with the next bit of the dividend. -/
def shifted (build : Build) (x : Wide) (i : Nat) (r : Wide) : Wide :=
  or (shl r build 1) (and (U128.shr x build (BitVec.ofNat 32 i)) (ofU64 1))

theorem toNat_shl_one (hr : s.r.val.toNat < 2 ^ 127) : (shl s.r build 1).val.toNat = s.r.val.toNat <<< 1 := by
  have hone : (amount 1).toNat = 1 := by decide
  rw [val_shl, hone, BitVec.toNat_shiftLeft, Nat.shiftLeft_eq, Nat.mod_eq_of_lt (by omega)]

theorem toNat_shifted (hi : i < 128) (hr : s.r.val.toNat < 2 ^ 127) :
    (shifted build x i s.r).val.toNat = 2 * s.r.val.toNat + x.val.toNat / 2 ^ i % 2 := by
  have hbit : x.val.toNat / 2 ^ i % 2 < 2 ^ 1 := Nat.mod_lt _ (by decide)
  have hone : (ofU64 1).val.toNat = 1 := by decide
  have hand : (and (U128.shr x build (BitVec.ofNat 32 i)) (ofU64 1)).val.toNat = x.val.toNat / 2 ^ i % 2 := by
    unfold Wide.and
    rw [Limbs.val_and, BitVec.toNat_and, U128.val_shr, toNat_amount_ofNat hi, BitVec.toNat_ushiftRight, Nat.shiftRight_eq_div_pow, hone,
      Nat.and_one_is_mod]
  unfold shifted Wide.or
  rw [Limbs.val_or, BitVec.toNat_or, toNat_shl_one hr, hand, ← Nat.shiftLeft_add_eq_or_of_lt hbit, Nat.shiftLeft_eq, Nat.mul_comm]

theorem ge_iff {r : Wide} : U128.ge r y = true ↔ y.val.toNat ≤ r.val.toNat :=
  compares_ult.ge_iff.trans Int.ofNat_le

/-- The mask of the comparison takes the divisor away where it fits, which leaves the remainder of a division. -/
theorem toNat_reduced {r : Wide} (hr : r.val.toNat < 2 * y.val.toNat) :
    (sub r (and y (neg (ofBool (U128.ge r y))))).val.toNat = r.val.toNat % y.val.toNat := by
  have hmask : (and y (neg (ofBool (U128.ge r y)))).val = if U128.ge r y then y.val else 0 := by
    unfold Wide.and
    rw [Limbs.val_and, val_neg, val_ofBool]
    cases U128.ge r y
    · exact BitVec.and_zero
    · exact BitVec.and_allOnes
  rw [Wide.val_sub, hmask]
  by_cases h : U128.ge r y = true
  · have hle := ge_iff.1 h
    rw [if_pos h, BitVec.toNat_sub_of_le hle, Nat.mod_eq_sub_mod hle, Nat.mod_eq_of_lt (by omega)]
  · have hlt : r.val.toNat < y.val.toNat := not_le.1 fun hle => h (ge_iff.2 hle)
    rw [if_neg h, Nat.mod_eq_of_lt hlt]
    exact congrArg BitVec.toNat (BitVec.sub_zero _)

theorem toNat_ofBool_ge {r : Wide} (hr : r.val.toNat < 2 * y.val.toNat) :
    (ofBool (U128.ge r y)).val.toNat = r.val.toNat / y.val.toNat := by
  rw [val_ofBool]
  by_cases h : U128.ge r y = true
  · have hle := ge_iff.1 h
    rw [if_pos h, Nat.div_eq_of_lt_le (by omega : 1 * y.val.toNat ≤ r.val.toNat) (by omega)]
    rfl
  · have hlt : r.val.toNat < y.val.toNat := not_le.1 fun hle => h (ge_iff.2 hle)
    rw [if_neg h, Nat.div_eq_of_lt hlt]
    rfl

/-- The bit of this round is above none of the bits that the quotient has. -/
theorem toNat_or_shl {q d : Wide} (hi : i < 128) (hq : 2 ^ (i + 1) ∣ q.val.toNat) (hd : d.val.toNat < 2) :
    (or q (shl d build (BitVec.ofNat 32 i))).val.toNat = q.val.toNat + d.val.toNat * 2 ^ i := by
  obtain ⟨k, hk⟩ := hq
  have hpow : 2 ^ (i + 1) ≤ 2 ^ 128 := Nat.pow_le_pow_right (by decide) (by omega)
  have hbit : d.val.toNat * 2 ^ i < 2 ^ (i + 1) := by
    rw [Nat.pow_succ, Nat.mul_comm (2 ^ i)]
    exact Nat.mul_lt_mul_of_pos_right hd (Nat.two_pow_pos i)
  have hshl : (shl d build (BitVec.ofNat 32 i)).val.toNat = d.val.toNat * 2 ^ i := by
    rw [val_shl, toNat_amount_ofNat hi, BitVec.toNat_shiftLeft, Nat.shiftLeft_eq, Nat.mod_eq_of_lt (by omega)]
  unfold Wide.or
  rw [Limbs.val_or, BitVec.toNat_or, hshl, hk, Nat.two_pow_add_eq_or_of_lt hbit]

end Round

/-! ## All rounds -/

/-- The bits below bit `n` of the dividend are still to come. -/
def Quotient.Partial (s : Quotient) (n : Nat) : Prop :=
  LongDivision 2 x.val.toNat y.val.toNat n s.q.val.toNat s.r.val.toNat

section Rounds
variable {build x y} {i k : Nat} {s : Quotient}

/-- Whatever the divisor is, the remainder is at most the bits of the dividend that are taken, and one is still to come. -/
theorem remainder_lt (h : s.Partial x y (i + 1)) : s.r.val.toNat < 2 ^ 127 := by
  have hle := h.remainder_le
  have hlt : x.val.toNat / 2 ^ i ≤ x.val.toNat := Nat.div_le_self _ _
  have := x.val.isLt
  omega

theorem divRound_partial (hi : i < 128) (h : s.Partial x y (i + 1)) : (divRound build x y i s).Partial x y i := by
  have hr := remainder_lt h
  have hshifted : (shifted build x i s.r).val.toNat = _ := toNat_shifted hi hr
  have hlt := h.lt
  have hsmall : (shifted build x i s.r).val.toNat < 2 * y.val.toNat := by omega
  have hbit : (ofBool (U128.ge (shifted build x i s.r) y)).val.toNat < 2 := by
    cases U128.ge (shifted build x i s.r) y <;> decide
  have hround := LongDivision.round (by decide) h
  rw [← hshifted, ← toNat_reduced hsmall, ← toNat_ofBool_ge hsmall, ← toNat_or_shl hi h.dvd hbit] at hround
  exact hround

theorem divRounds_partial (hy : 0 < y.val.toNat) (hk : k ≤ 128) : (divRounds build x y k).Partial x y (128 - k) := by
  induction k with
  | zero =>
    have hzero : (ofU64 0).val.toNat = 0 := by decide
    show LongDivision 2 _ _ 128 (ofU64 0).val.toNat (ofU64 0).val.toNat
    rw [hzero]
    exact LongDivision.start x.val.isLt hy
  | succ k ih =>
    have hbefore := ih (by omega)
    rw [show 128 - k = 127 - k + 1 by omega] at hbefore
    rw [show 128 - (k + 1) = 127 - k by omega]
    exact divRound_partial (by omega) hbefore

end Rounds

theorem division_exact :
    (0 < y.val.toNat →
      x.val.toNat = (U128.div build x y).val.toNat * y.val.toNat + (U128.mod build x y).val.toNat ∧
      (U128.mod build x y).val.toNat < y.val.toNat ∧
      ∀ k < 128, (shl (divRounds build x y k).r build 1).val.toNat = 2 * (divRounds build x y k).r.val.toNat) ∧
    (y.val.toNat = 0 → (U128.div build x y).val = BitVec.allOnes 128 ∧ U128.mod build x y = x) := by
  have hzero : (ofU64 0).val = 0#128 := by decide
  have heq : eq y (ofU64 0) = true ↔ y.val.toNat = 0 := by
    rw [eq_iff, ← Limbs.val_inj, hzero, ← BitVec.toNat_inj, BitVec.toNat_ofNat, Nat.zero_mod]
  unfold U128.div U128.mod
  refine ⟨fun hy => ?_, fun hy => ?_⟩
  · have hne : ¬ eq y (ofU64 0) = true := fun h => by rw [heq] at h; omega
    rw [if_neg hne, if_neg hne]
    have hall : (divRounds build x y 128).Partial x y 0 := divRounds_partial hy (Nat.le_refl _)
    refine ⟨hall.finish.1, hall.finish.2, fun k hk => ?_⟩
    have hpartial : (divRounds build x y k).Partial x y (127 - k + 1) := by
      rw [show 127 - k + 1 = 128 - k by omega]
      exact divRounds_partial hy (by omega)
    rw [toNat_shl_one (remainder_lt hpartial), Nat.shiftLeft_eq, Nat.mul_comm]
  · rw [if_pos (heq.2 hy), if_pos (heq.2 hy)]
    exact ⟨by decide, rfl⟩

/-- The divisor is above 2^127. -/
def largeDivisor : Wide := ⟨1 <<< 63, 1⟩

theorem division_exact_large :
    (⟨-1, -1⟩ : Wide).val.toNat = (U128.div .branching ⟨-1, -1⟩ largeDivisor).val.toNat * largeDivisor.val.toNat +
      (U128.mod .branching ⟨-1, -1⟩ largeDivisor).val.toNat ∧
    (U128.mod .branching ⟨-1, -1⟩ largeDivisor).val.toNat < largeDivisor.val.toNat ∧
    (U128.div .branching largeDivisor (ofU64 0)).val = BitVec.allOnes 128 := by
  have hquotient := (division_exact .branching ⟨-1, -1⟩ largeDivisor).1 (by decide)
  have hzero := (division_exact .branching largeDivisor (ofU64 0)).2 (by decide)
  exact ⟨hquotient.1, hquotient.2.1, hzero.1⟩

end Rv8.Asm
