import Rv8.Asm.Operators
/-!
# Which 128-bit operators are exact

Sums, differences, comparisons, shifts and the bitwise operators on two 128-bit
operands compute modulo 2^128. The bitwise operators on an `s32` leave the upper word
alone, the constructor from one word extends its sign, also that of a `u64`, and the
product takes its lower word from a product of words, whose upper word it drops, and
adds the carry of the other partial products in the wrong place.
-/

namespace Rv8.Asm

open Rv8.Lib Wide

/-! ## Comparisons -/

section Comparisons
variable {less : BitVec 64 → BitVec 64 → Bool} {value : Wide → Int} {x y : Wide}

/-- The comparison of the upper words, and then of the lower ones, is that of the values. -/
structure Compares (less : BitVec 64 → BitVec 64 → Bool) (value : Wide → Int) : Prop where
  lex : ∀ x y : Wide, value x < value y ↔ less x.hi y.hi = true ∨ (x.hi = y.hi ∧ x.lo < y.lo)
  inj : ∀ x y : Wide, value x = value y ↔ x = y

namespace Compares

theorem lt_iff (h : Compares less value) : Wide.lt x y less = true ↔ value x < value y := by
  unfold Wide.lt
  rw [h.lex, Bool.or_eq_true, Bool.and_eq_true, beq_iff_eq, decide_eq_true_iff]

theorem gt_iff (h : Compares less value) : Wide.gt x y less = true ↔ value y < value x := by
  unfold Wide.gt
  rw [h.lex, Bool.or_eq_true, Bool.and_eq_true, beq_iff_eq, decide_eq_true_iff, @eq_comm _ x.hi]

theorem le_lex (h : Compares less value) (x y : Wide) : value x ≤ value y ↔ less x.hi y.hi = true ∨ (x.hi = y.hi ∧ x.lo ≤ y.lo) := by
  have hlo : x.lo < y.lo ∨ x.lo = y.lo ↔ x.lo ≤ y.lo := by bv_omega
  rw [le_iff_lt_or_eq, h.lex, h.inj, Limbs.ext_iff, or_assoc, ← and_or_left, hlo]

theorem le_iff (h : Compares less value) : Wide.le x y less = true ↔ value x ≤ value y := by
  unfold Wide.le
  rw [h.le_lex, Bool.or_eq_true, Bool.and_eq_true, beq_iff_eq, decide_eq_true_iff]

theorem ge_iff (h : Compares less value) : Wide.ge x y less = true ↔ value y ≤ value x := by
  unfold Wide.ge
  rw [h.le_lex, Bool.or_eq_true, Bool.and_eq_true, beq_iff_eq, decide_eq_true_iff, @eq_comm _ x.hi]

end Compares

theorem compares_ult : Compares BitVec.ult fun x => x.val.toNat where
  lex x y := by
    rw [Int.ofNat_lt, ← BitVec.lt_def, Limbs.val_lt_iff, BitVec.ult_iff_lt]
  inj x y := by
    rw [Int.ofNat_inj, BitVec.toNat_inj, Limbs.val_inj]

theorem compares_slt : Compares BitVec.slt fun x => x.val.toInt where
  lex x y := by
    rw [← BitVec.slt_iff_toInt_lt, Limbs.val_slt_iff (by decide)]
  inj x y := by
    rw [BitVec.toInt_inj, Limbs.val_inj]

end Comparisons

/-! ## Operands of one word -/

section Narrow
variable {x : Wide} {k : BitVec 32} {u : BitVec 64}

theorem signExtend_eq_val (k : BitVec 32) :
    k.signExtend 128 = Limbs.val ⟨if k.msb then BitVec.allOnes 64 else 0, k.signExtend 64⟩ := by
  have hmsb : (k.signExtend 64).msb = k.msb := by
    rw [BitVec.msb_signExtend]
    simp
  have htwice : (k.signExtend 64).signExtend 128 = k.signExtend 128 := by
    apply BitVec.eq_of_toInt_eq
    rw [BitVec.toInt_signExtend_of_le (by decide), BitVec.toInt_signExtend_of_le (by decide), BitVec.toInt_signExtend_of_le (by decide)]
  rw [← htwice, ← hmsb]
  exact (Limbs.val_signExtend _).symm

/-- With an `s32` the lower word is right, so that the upper one decides. -/
theorem upper_iff (f : BitVec 64 → BitVec 64 → BitVec 64) {v : BitVec 128}
    (hv : v = Limbs.val ⟨f x.hi (if k.msb then BitVec.allOnes 64 else 0), f x.lo (k.signExtend 64)⟩) :
    Limbs.val ⟨x.hi, f x.lo (k.signExtend 64)⟩ = v ↔ x.hi = f x.hi (if k.msb then BitVec.allOnes 64 else 0) := by
  rw [hv, Limbs.val_inj, Limbs.ext_iff]
  exact and_iff_left rfl

theorem msb_iff : k.msb = true ↔ k.toInt < 0 := by
  rw [BitVec.msb_eq_toInt, decide_eq_true_iff]

theorem val_andS32_iff : (andS32 x k).val = x.val &&& k.signExtend 128 ↔ k.toInt < 0 ∨ x.hi = 0 := by
  refine (upper_iff (· &&& ·) ?_).trans ?_
  · rw [signExtend_eq_val]
    exact Limbs.val_and.symm
  · rw [← msb_iff]
    cases k.msb
    · simp
    · rw [if_pos rfl, BitVec.and_allOnes]
      exact iff_of_true rfl (.inl rfl)

theorem val_orS32_iff : (orS32 x k).val = x.val ||| k.signExtend 128 ↔ 0 ≤ k.toInt ∨ x.hi = BitVec.allOnes 64 := by
  refine (upper_iff (· ||| ·) ?_).trans ?_
  · rw [signExtend_eq_val]
    exact Limbs.val_or.symm
  · rw [← not_lt, ← msb_iff]
    cases k.msb
    · simp
    · rw [if_pos rfl, BitVec.or_allOnes]
      simp only [not_true_eq_false, false_or]

theorem val_xorS32_iff : (xorS32 x k).val = x.val ^^^ k.signExtend 128 ↔ 0 ≤ k.toInt := by
  have hne : x.hi ≠ ~~~x.hi := fun h => by
    have hbit := congrArg (·.getLsbD 0) h
    simp at hbit
  refine (upper_iff (· ^^^ ·) ?_).trans ?_
  · rw [signExtend_eq_val]
    exact Limbs.val_xor.symm
  · rw [← not_lt, ← msb_iff]
    cases k.msb
    · simp
    · rw [if_pos rfl, BitVec.xor_allOnes]
      exact iff_of_false hne (not_not.2 rfl)

theorem toNat_ofU64_iff : (ofU64 u).val.toNat = u.toNat ↔ u.toNat < 2 ^ 63 := by
  rw [val_ofU64, BitVec.toNat_signExtend]
  have hlt := u.isLt
  cases hm : u.msb with
  | false =>
    have := BitVec.msb_eq_false_iff_two_mul_lt.1 hm
    simp
    omega
  | true =>
    have := BitVec.msb_eq_true_iff_two_mul_ge.1 hm
    simp
    omega

end Narrow

/-! ## Products -/

section Products
variable {x y : Wide}

/-- The sum of the two partial products that meet in the upper word has a carry, as the comparison of the type finds it. -/
def CarryU128 (x y : Wide) : Prop :=
  let z1 := (x.hi * y.lo).toInt
  let z2 := (x.lo * y.hi).toInt
  (z1 < 0 ∧ z2 < 0) ∨ ((z1 < 0 ∨ z2 < 0) ∧ 0 ≤ z1 + z2)

def CarryS128 (x y : Wide) : Prop := (x.lo * y.hi).toInt < 0

instance (x y : Wide) : Decidable (CarryU128 x y) := inferInstanceAs (Decidable (_ ∨ _))

instance (x y : Wide) : Decidable (CarryS128 x y) := inferInstanceAs (Decidable (_ < _))

/-- The carry makes up for what the product of the lower words loses. -/
def ProductFits (x y : Wide) (carry : Prop) : Prop :=
  (carry → 2 ^ 63 ≤ x.lo.toNat * y.lo.toNat ∧ x.lo.toNat * y.lo.toNat < 3 * 2 ^ 63) ∧ (¬ carry → x.lo.toNat * y.lo.toNat < 2 ^ 63)

theorem ofInt_eq_iff {n : Nat} (a b : Int) : BitVec.ofInt n a = BitVec.ofInt n b ↔ (2 ^ n : Int) ∣ a - b := by
  have hpos : (2 ^ n : Int) ≠ 0 := by positivity
  have ha := Int.emod_nonneg a hpos
  have hb := Int.emod_nonneg b hpos
  rw [← BitVec.toNat_inj, BitVec.toNat_ofInt, BitVec.toNat_ofInt, Int.dvd_iff_emod_eq_zero, ← Int.emod_eq_emod_iff_emod_sub_eq_zero]
  push_cast
  omega

/-- A product of words, and what its upper word and its sign take from it. -/
theorem toInt_mul (a b : BitVec 64) :
    (a * b).toInt = a.toNat * b.toNat - ((a.toNat * b.toNat / 2 ^ 64 + a.toNat * b.toNat / 2 ^ 63 % 2 : Nat) : Int) * 2 ^ 64 := by
  rw [BitVec.toInt_eq_toNat_cond, BitVec.toNat_mul]
  generalize hp : a.toNat * b.toNat = p
  have hcast : (a.toNat : Int) * b.toNat = p := by exact_mod_cast hp
  rw [hcast]
  split <;> omega

theorem val_mul (less : BitVec 64 → BitVec 64 → Bool) (build : Build) :
    (Wide.mul x y less build).val = BitVec.ofInt 128 (((x.hi * y.lo).toInt + (x.lo * y.hi).toInt +
      if Wide.lt (add (ofU64 (x.hi * y.lo)) (ofU64 (x.lo * y.hi))) (ofU64 (x.hi * y.lo)) less then 1 else 0) * 2 ^ 64 +
        (x.lo * y.lo).toInt) := by
  have hamount : (amount 64).toNat = 64 := by decide
  have hpow : BitVec.twoPow 128 64 = BitVec.ofInt 128 (2 ^ 64) := by decide
  unfold Wide.mul
  dsimp only
  generalize hc : Wide.lt (add (ofU64 (x.hi * y.lo)) (ofU64 (x.lo * y.hi))) (ofU64 (x.hi * y.lo)) less = c
  have hbool : (ofBool c).val = BitVec.ofInt 128 (if c then 1 else 0) := by
    cases c <;> decide
  rw [Wide.val_add, val_shl, Wide.val_add, Wide.val_add, hbool, val_ofU64, val_ofU64, val_ofU64, hamount, BitVec.shiftLeft_eq_mul_twoPow,
    hpow, BitVec.ofInt_add, BitVec.ofInt_mul, BitVec.ofInt_add, BitVec.ofInt_add]
  rfl

/-- Modulo 2^128 a word that is lost counts by its own value only. -/
theorem dvd_lost_word_iff {p : Nat} {c k : Int} (hp : p < (2 ^ 64 - 1) * 2 ^ 64) (hc0 : 0 ≤ c) (hc1 : c ≤ 1) :
    (2 ^ 128 : Int) ∣ (c - ((p / 2 ^ 64 + p / 2 ^ 63 % 2 : Nat) : Int)) * 2 ^ 64 - k * 2 ^ 128 ↔
      c = ((p / 2 ^ 64 + p / 2 ^ 63 % 2 : Nat) : Int) := by
  have hword : p / 2 ^ 64 + p / 2 ^ 63 % 2 < 2 ^ 64 := by omega
  generalize p / 2 ^ 64 + p / 2 ^ 63 % 2 = m at hword ⊢
  omega

theorem val_mul_iff {less : BitVec 64 → BitVec 64 → Bool} {carry : Prop} [Decidable carry] (build : Build)
    (hcarry : Wide.lt (add (ofU64 (x.hi * y.lo)) (ofU64 (x.lo * y.hi))) (ofU64 (x.hi * y.lo)) less = true ↔ carry) :
    (Wide.mul x y less build).val = x.val * y.val ↔ ProductFits x y carry := by
  have hx := Limbs.val_eq_ofInt x
  have hy := Limbs.val_eq_ofInt y
  rw [val_mul, hx, hy, ← BitVec.ofInt_mul]
  refine (ofInt_eq_iff _ _).trans ?_
  rw [toInt_mul, toInt_mul, toInt_mul x.lo y.lo]
  -- what the two partial products lose is shifted out
  generalize ((x.hi.toNat * y.lo.toNat / 2 ^ 64 + x.hi.toNat * y.lo.toNat / 2 ^ 63 % 2 : Nat) : Int) = k1
  generalize ((x.lo.toNat * y.hi.toNat / 2 ^ 64 + x.lo.toNat * y.hi.toNat / 2 ^ 63 % 2 : Nat) : Int) = k2
  have hlt : x.lo.toNat * y.lo.toNat < (2 ^ 64 - 1) * 2 ^ 64 := by
    have := x.lo.isLt
    have := y.lo.isLt
    exact Nat.mul_lt_mul_of_le_of_lt (by omega) (by omega) (by omega)
  unfold ProductFits
  generalize Wide.lt (add (ofU64 (x.hi * y.lo)) (ofU64 (x.lo * y.hi))) (ofU64 (x.hi * y.lo)) less = b at hcarry ⊢
  have hdiff (c m : Int) : ((x.hi.toNat * y.lo.toNat - k1 * 2 ^ 64 + (x.lo.toNat * y.hi.toNat - k2 * 2 ^ 64) + c) * 2 ^ 64 +
      (x.lo.toNat * y.lo.toNat - m * 2 ^ 64) - (x.hi.toNat * 2 ^ 64 + x.lo.toNat) * (y.hi.toNat * 2 ^ 64 + y.lo.toNat) : Int) =
      (c - m) * 2 ^ 64 - (k1 + k2 + x.hi.toNat * y.hi.toNat) * 2 ^ 128 := by
    ring
  rw [hdiff]
  generalize x.lo.toNat * y.lo.toNat = p at hlt ⊢
  cases b with
  | true =>
    have hcar : carry := hcarry.1 rfl
    rw [if_pos rfl, dvd_lost_word_iff hlt (by decide) (by decide)]
    simp only [hcar, forall_const, not_true, false_implies, and_true]
    omega
  | false =>
    have hcar : ¬ carry := fun h => Bool.false_ne_true (hcarry.2 h)
    rw [if_neg Bool.false_ne_true, dvd_lost_word_iff hlt (by decide) (by decide)]
    simp only [hcar, not_false_eq_true, forall_const, false_implies, true_and]
    omega

/-- The operands keep their signs, so that two negative ones always have a carry, and two others never. -/
theorem carryU128_iff (x y : Wide) :
    Wide.lt (add (ofU64 (x.hi * y.lo)) (ofU64 (x.lo * y.hi))) (ofU64 (x.hi * y.lo)) BitVec.ult = true ↔ CarryU128 x y := by
  unfold CarryU128
  dsimp only
  generalize x.hi * y.lo = a
  generalize x.lo * y.hi = b
  have ha := BitVec.toInt_signExtend_of_le (x := a) (by decide : 64 ≤ 128)
  have hb := BitVec.toInt_signExtend_of_le (x := b) (by decide : 64 ≤ 128)
  have := a.le_toInt
  have := a.toInt_lt
  have := b.le_toInt
  have := b.toInt_lt
  rw [compares_ult.lt_iff, Int.ofNat_lt, ← BitVec.lt_def, Wide.val_add, val_ofU64, val_ofU64, Limbs.add_lt_iff]
  rw [BitVec.toInt_eq_toNat_cond] at ha hb
  split at ha <;> split at hb <;> omega

theorem carryS128_iff (x y : Wide) :
    Wide.lt (add (ofU64 (x.hi * y.lo)) (ofU64 (x.lo * y.hi))) (ofU64 (x.hi * y.lo)) BitVec.slt = true ↔ CarryS128 x y := by
  unfold CarryS128
  generalize x.hi * y.lo = a
  generalize x.lo * y.hi = b
  have ha := BitVec.toInt_signExtend_of_le (x := a) (by decide : 64 ≤ 128)
  have hb := BitVec.toInt_signExtend_of_le (x := b) (by decide : 64 ≤ 128)
  have := a.le_toInt
  have := a.toInt_lt
  have := b.le_toInt
  have := b.toInt_lt
  rw [compares_slt.lt_iff, Wide.val_add, val_ofU64, val_ofU64, BitVec.toInt_add, ha, hb, Int.bmod_eq_of_le (by omega) (by omega)]
  omega

end Products

/-! ## Every operator -/

section Operators
variable (build : Build) (x y : Wide) (shamt : BitVec 32)

/-- The operators whose text the two types share are those of words of 128 bits. -/
structure SharedExact : Prop where
  add : (add x y).val = x.val + y.val
  sub : (sub x y).val = x.val - y.val
  neg : (neg x).val = -x.val
  and : (and x y).val = x.val &&& y.val
  or : (or x y).val = x.val ||| y.val
  xor : (xor x y).val = x.val ^^^ y.val
  shl : (shl x build shamt).val = x.val <<< (shamt.toInt % 128).toNat
  eq : eq x y = true ↔ x.val = y.val
  ne : ne x y = true ↔ x.val ≠ y.val

structure U128.Exact : Prop where
  shr : (U128.shr x build shamt).val = x.val >>> (shamt.toInt % 128).toNat
  lt : U128.lt x y = true ↔ x.val.toNat < y.val.toNat
  gt : U128.gt x y = true ↔ x.val.toNat > y.val.toNat
  ge : U128.ge x y = true ↔ x.val.toNat ≥ y.val.toNat
  le : U128.le x y = true ↔ x.val.toNat ≤ y.val.toNat

structure S128.Exact : Prop where
  shr : (S128.shr x build shamt).val = x.val.sshiftRight (shamt.toInt % 128).toNat
  lt : S128.lt x y = true ↔ x.val.toInt < y.val.toInt
  gt : S128.gt x y = true ↔ x.val.toInt > y.val.toInt
  ge : S128.ge x y = true ↔ x.val.toInt ≥ y.val.toInt
  le : S128.le x y = true ↔ x.val.toInt ≤ y.val.toInt

theorem toNat_amount_eq : (amount shamt).toNat = (shamt.toInt % 128).toNat := by
  have := toNat_amount shamt
  omega

theorem sharedExact : SharedExact build x y shamt where
  add := Wide.val_add
  sub := Wide.val_sub
  neg := val_neg
  and := Limbs.val_and
  or := Limbs.val_or
  xor := Limbs.val_xor
  shl := by rw [val_shl, toNat_amount_eq]
  eq := by rw [eq_iff, Limbs.val_inj]
  ne := by rw [ne_iff, Ne, Ne, Limbs.val_inj]

theorem U128.exact : U128.Exact build x y shamt where
  shr := by rw [U128.val_shr, toNat_amount_eq]
  lt := compares_ult.lt_iff.trans Int.ofNat_lt
  gt := compares_ult.gt_iff.trans Int.ofNat_lt
  ge := compares_ult.ge_iff.trans Int.ofNat_le
  le := compares_ult.le_iff.trans Int.ofNat_le

theorem S128.exact : S128.Exact build x y shamt where
  shr := by rw [S128.val_shr, toNat_amount_eq]
  lt := compares_slt.lt_iff
  gt := compares_slt.gt_iff
  ge := compares_slt.ge_iff
  le := compares_slt.le_iff

/-- Which operators compute modulo 2^128, and on which operands the others do. -/
theorem wide_exact_iff (k : BitVec 32) (u : BitVec 64) (host : Emu.Host) :
    SharedExact build x y shamt ∧ U128.Exact build x y shamt ∧ S128.Exact build x y shamt ∧
    (shl x (.predicated host) shamt = shl x .branching shamt ∧
      U128.shr x (.predicated host) shamt = U128.shr x .branching shamt ∧
      S128.shr x (.predicated host) shamt = S128.shr x .branching shamt) ∧
    ((andS32 x k).val = x.val &&& k.signExtend 128 ↔ 0 ≤ k.toInt ∧ x.hi = 0 ∨ k.toInt < 0) ∧
    ((orS32 x k).val = x.val ||| k.signExtend 128 ↔ 0 ≤ k.toInt ∨ k.toInt < 0 ∧ x.hi = BitVec.allOnes 64) ∧
    ((xorS32 x k).val = x.val ^^^ k.signExtend 128 ↔ 0 ≤ k.toInt) ∧
    ((ofU64 u).val.toNat = u.toNat ↔ u.toNat < 2 ^ 63) ∧
    ((U128.mul x y build).val = x.val * y.val ↔ ProductFits x y (CarryU128 x y)) ∧
    ((S128.mul x y build).val = x.val * y.val ↔ ProductFits x y (CarryS128 x y)) := by
  refine ⟨sharedExact build x y shamt, U128.exact build x y shamt, S128.exact build x y shamt,
    ⟨shl_eq _ _, U128.shr_eq _ _ _, S128.shr_eq _ _ _⟩, ?_, ?_, val_xorS32_iff, toNat_ofU64_iff,
    val_mul_iff build (carryU128_iff x y), val_mul_iff build (carryS128_iff x y)⟩
  · rw [val_andS32_iff]
    by_cases h : k.toInt < 0
    · simp [h]
    · simp [h, not_lt.1 h]
  · rw [val_orS32_iff]
    by_cases h : k.toInt < 0
    · simp [h]
    · simp [h, not_lt.1 h]

/-- The word 2^32, whose square needs more than one word. -/
def bit32 : Wide := ⟨0, 1 <<< 32⟩

theorem not_wide_exact :
    (andS32 (⟨1, 0⟩ : Wide) 1).val ≠ (⟨1, 0⟩ : Wide).val &&& (1 : BitVec 32).signExtend 128 ∧
    (xorS32 (⟨0, 0⟩ : Wide) (-1)).val ≠ (⟨0, 0⟩ : Wide).val ^^^ (-1 : BitVec 32).signExtend 128 ∧
    (ofU64 (1 <<< 63)).val.toNat ≠ (1 <<< 63 : BitVec 64).toNat ∧
    (U128.mul bit32 bit32 .branching).val ≠ bit32.val * bit32.val ∧ (S128.mul bit32 bit32 .branching).val ≠ bit32.val * bit32.val := by
  decide

end Operators

end Rv8.Asm
