import Rv8.Emu.Multiply
import Rv8.Emu.Interp
/-!
# Multiplication and division

The instructions of the M extension. The multiplications give the two words of the
exact product. The divisions test for a zero divisor and for overflow before they
divide, so that the host is asked only for quotients that C defines.
-/

namespace Rv8.Emu

open Rv8.Lib Rv8.Asm

/-! ## The words of a product -/

section Words
variable {n : Nat}

/-- `hi`, read as `value`, and `lo` are the words of `p`. -/
def Words (hi lo : BitVec n) (value p : Int) : Prop := hi = BitVec.ofInt n (p / 2 ^ n) ∧ value * 2 ^ n + lo.toNat = p

theorem toNat_ofInt_mod (p : Int) : ((BitVec.ofInt n p).toNat : Int) = p % 2 ^ n := by
  rw [BitVec.toNat_ofInt, Int.toNat_of_nonneg (Int.emod_nonneg _ (by simp))]
  push_cast
  rfl

theorem words_of_eq {hi lo : BitVec n} {value p : Int} (hhi : hi = BitVec.ofInt n (p / 2 ^ n)) (hlo : lo = BitVec.ofInt n p)
    (hvalue : value = p / 2 ^ n) : Words hi lo value p := by
  refine ⟨hhi, ?_⟩
  rw [hlo, hvalue, toNat_ofInt_mod, Int.mul_comm]
  exact Int.mul_ediv_add_emod p (2 ^ n)

/-- A high word in the range of signed words is read back. -/
theorem toInt_ofInt_ediv (hpos : 0 < n) {p : Int} (h0 : -(2 ^ (n - 1) * 2 ^ n) ≤ p) (h1 : p < 2 ^ (n - 1) * 2 ^ n) :
    (BitVec.ofInt n (p / 2 ^ n)).toInt = p / 2 ^ n := by
  have hN : (0 : Int) < 2 ^ n := by positivity
  apply BitVec.toInt_ofInt_eq_self hpos
  · rw [Int.le_ediv_iff_mul_le hN, Int.neg_mul]
    exact h0
  · rw [Int.ediv_lt_iff_lt_mul hN]
    exact h1

theorem abs_toInt_le (x : BitVec n) : |x.toInt| ≤ 2 ^ (n - 1) :=
  abs_le.2 ⟨x.le_toInt, le_of_lt x.toInt_lt⟩

theorem words_mulhu (hn : n / 2 + n / 2 = n) (hpos : 0 < n) (x y : BitVec n) :
    Words (mulhu x y) (x * y) (mulhu x y).toNat (x.toNat * y.toNat) := by
  have hhi : mulhu x y = BitVec.ofInt n ((x.toNat : Int) * y.toNat / 2 ^ n) := by
    rw [mulhu_eq hn hpos, ← BitVec.ofInt_natCast]
    push_cast
    rfl
  refine words_of_eq hhi ?_ ?_
  · rw [BitVec.ofInt_mul, BitVec.ofInt_natCast, BitVec.ofInt_natCast, BitVec.ofNat_toNat, BitVec.ofNat_toNat, BitVec.setWidth_eq,
      BitVec.setWidth_eq]
  · have hlt : x.toNat * y.toNat / 2 ^ n < 2 ^ n := Nat.div_lt_of_lt_mul (Nat.mul_lt_mul'' x.isLt y.isLt)
    rw [mulhu_eq hn hpos, BitVec.toNat_ofNat, Nat.mod_eq_of_lt hlt]
    push_cast
    rfl

theorem words_mulh (hn : n / 2 + n / 2 = n) (hpos : 0 < n) (x y : BitVec n) :
    Words (mulh x y) (x * y) (mulh x y).toInt (x.toInt * y.toInt) := by
  refine words_of_eq (mulh_eq hn hpos x y) ?_ ?_
  · rw [BitVec.ofInt_mul, BitVec.ofInt_toInt, BitVec.ofInt_toInt]
  · have hpow : (2 : Int) ^ (n - 1) < 2 ^ n := pow_lt_pow_right₀ (by decide) (by omega)
    have habs : |x.toInt * y.toInt| < 2 ^ (n - 1) * 2 ^ n := by
      rw [abs_mul]
      calc |x.toInt| * |y.toInt| ≤ 2 ^ (n - 1) * 2 ^ (n - 1) :=
            mul_le_mul (abs_toInt_le x) (abs_toInt_le y) (abs_nonneg _) (by positivity)
        _ < 2 ^ (n - 1) * 2 ^ n := mul_lt_mul_of_pos_left hpow (by positivity)
    rw [mulh_eq hn hpos]
    exact toInt_ofInt_ediv hpos (le_of_lt (abs_lt.1 habs).1) (abs_lt.1 habs).2

theorem words_mulhsu (hn : n / 2 + n / 2 = n) (hpos : 0 < n) (x y : BitVec n) :
    Words (mulhsu x y) (x * y) (mulhsu x y).toInt (x.toInt * y.toNat) := by
  refine words_of_eq (mulhsu_eq hn hpos x y) ?_ ?_
  · rw [BitVec.ofInt_mul, BitVec.ofInt_toInt, BitVec.ofInt_natCast, BitVec.ofNat_toNat, BitVec.setWidth_eq]
  · have hy : (y.toNat : Int) < 2 ^ n := by exact_mod_cast y.isLt
    have habs : |x.toInt * y.toNat| < 2 ^ (n - 1) * 2 ^ n := by
      rw [abs_mul, abs_of_nonneg (by positivity : (0 : Int) ≤ y.toNat)]
      calc |x.toInt| * y.toNat ≤ 2 ^ (n - 1) * y.toNat := mul_le_mul_of_nonneg_right (abs_toInt_le x) (by positivity)
        _ < 2 ^ (n - 1) * 2 ^ n := mul_lt_mul_of_pos_left hy (by positivity)
    rw [mulhsu_eq hn hpos]
    exact toInt_ofInt_ediv hpos (le_of_lt (abs_lt.1 habs).1) (abs_lt.1 habs).2

end Words

/-- The four multiplications, on the operands of any instruction. -/
theorem multiplications_exact {R : Rv} (host : Host) (s : Hart R) (dec : Decode) :
    let x := s.ireg dec.rs1
    let y := s.ireg dec.rs2
    action host s dec .mul = some (.m, .setRd (x * y)) ∧
      (action host s dec .mulhu = some (.m, .setRd (mulhu x y)) ∧
        Words (mulhu x y) (x * y) (mulhu x y).toNat (x.toNat * y.toNat)) ∧
      (action host s dec .mulh = some (.m, .setRd (mulh x y)) ∧
        Words (mulh x y) (x * y) (mulh x y).toInt (x.toInt * y.toInt)) ∧
      (action host s dec .mulhsu = some (.m, .setRd (mulhsu x y)) ∧
        Words (mulhsu x y) (x * y) (mulhsu x y).toInt (x.toInt * y.toNat)) := by
  have hn : R.xlen / 2 + R.xlen / 2 = R.xlen := by cases R <;> rfl
  have hpos : 0 < R.xlen := by cases R <;> decide
  exact ⟨rfl, ⟨rfl, words_mulhu hn hpos _ _⟩, ⟨rfl, words_mulh hn hpos _ _⟩, ⟨rfl, words_mulhsu hn hpos _ _⟩⟩

/-! ## Division -/

section Division
variable {n : Nat} (x y : BitVec n)

/-! What the host defines of its division. -/

def hostDiv : Option (BitVec n) := if y = 0 ∨ (x = BitVec.intMin n ∧ y = -1) then none else some (x.sdiv y)
def hostRem : Option (BitVec n) := if y = 0 ∨ (x = BitVec.intMin n ∧ y = -1) then none else some (x.srem y)
def hostDivu : Option (BitVec n) := if y = 0 then none else some (x.udiv y)
def hostRemu : Option (BitVec n) := if y = 0 then none else some (x.umod y)

/-! The conditional expressions of the interpreter, which divide in their last branch only. -/

def evalDiv : Option (BitVec n) :=
  if x = BitVec.intMin n ∧ y = -1 then some (BitVec.intMin n) else if y = 0 then some (-1) else hostDiv x y

def evalDivu : Option (BitVec n) := if y = 0 then some (-1) else hostDivu x y

def evalRem : Option (BitVec n) :=
  if x = BitVec.intMin n ∧ y = -1 then some 0 else if y = 0 then some x else hostRem x y

def evalRemu : Option (BitVec n) := if y = 0 then some x else hostRemu x y

theorem evalDiv_eq : evalDiv x y = some (div x y) := by
  unfold evalDiv hostDiv div
  split
  · rfl
  · next hover =>
    split
    · rfl
    · next hzero => exact if_neg (not_or.2 ⟨hzero, hover⟩)

theorem evalDivu_eq : evalDivu x y = some (divu x y) := by
  unfold evalDivu hostDivu divu
  split <;> rfl

theorem evalRem_eq : evalRem x y = some (rem x y) := by
  unfold evalRem hostRem rem
  split
  · rfl
  · next hover =>
    split
    · rfl
    · next hzero => exact if_neg (not_or.2 ⟨hzero, hover⟩)

theorem evalRemu_eq : evalRemu x y = some (remu x y) := by
  unfold evalRemu hostRemu remu
  split <;> rfl

variable (q r : BitVec n)

/-- The rules for a signed quotient and remainder. -/
structure SignedDivision : Prop where
  exact : y ≠ 0 → ¬ (x = BitVec.intMin n ∧ y = -1) → x.toInt = q.toInt * y.toInt + r.toInt ∧ |r.toInt| < |y.toInt| ∧
    (r.toInt = 0 ∨ (r.toInt < 0 ↔ x.toInt < 0))
  zero : y = 0 → q = -1 ∧ r = x
  overflow : x = BitVec.intMin n ∧ y = -1 → q = BitVec.intMin n ∧ r = 0

structure UnsignedDivision : Prop where
  exact : y ≠ 0 → x.toNat = q.toNat * y.toNat + r.toNat ∧ r.toNat < y.toNat
  zero : y = 0 → q = -1 ∧ r = x

variable {x y}

theorem signedDivision_div_rem (hpos : 0 < n) : SignedDivision x y (div x y) (rem x y) where
  exact hy hover := by
    have hne : x ≠ BitVec.intMin n ∨ y ≠ -1#n := not_and_or.1 hover
    have hq : div x y = x.sdiv y := by
      rw [div, if_neg hover, if_neg hy]
    have hr : rem x y = x.srem y := by
      rw [rem, if_neg hover, if_neg hy]
    have hyi : y.toInt ≠ 0 := fun h => hy (BitVec.toInt_inj.1 (h.trans BitVec.toInt_zero.symm))
    rw [hq, hr, BitVec.toInt_sdiv_of_ne_or_ne _ _ hne, BitVec.toInt_srem]
    refine ⟨(Int.tdiv_mul_add_tmod _ _).symm, ?_, ?_⟩
    · rw [Int.abs_eq_natAbs, Int.abs_eq_natAbs, Int.natAbs_tmod]
      exact_mod_cast Nat.mod_lt _ (Int.natAbs_pos.2 hyi)
    · have hsign := Int.sign_tmod x.toInt y.toInt
      split at hsign
      · exact .inl (Int.sign_eq_zero_iff_zero.1 hsign)
      · right
        rw [← Int.sign_eq_neg_one_iff_neg, ← Int.sign_eq_neg_one_iff_neg, hsign]
  zero hy := by
    subst hy
    have hover : ¬ (x = BitVec.intMin n ∧ (0 : BitVec n) = -1) := fun h => hpos.ne' (BitVec.neg_one_eq_zero_iff.1 h.2.symm)
    rw [div, rem, if_neg hover, if_neg hover, if_pos rfl, if_pos rfl]
    exact ⟨rfl, rfl⟩
  overflow hover := by
    rw [div, rem, if_pos hover, if_pos hover]
    exact ⟨rfl, rfl⟩

theorem unsignedDivision_divu_remu : UnsignedDivision x y (divu x y) (remu x y) where
  exact hy := by
    rw [divu, remu, if_neg hy, if_neg hy]
    have hpos : 0 < y.toNat := Nat.pos_of_ne_zero fun h => hy (BitVec.toNat_inj.1 (h.trans BitVec.toNat_zero.symm))
    exact ⟨(Nat.div_add_mod' _ _).symm, Nat.mod_lt _ hpos⟩
  zero hy := by
    rw [divu, remu, if_pos hy, if_pos hy]
    exact ⟨rfl, rfl⟩

end Division

/-- The expressions of a division and of its remainder are defined, their values follow the rules, and the two
instructions put them into `rd`. -/
def Divides {R : Rv} (s : Hart R) (dec : Decode) {n : Nat} (put : BitVec n → BitVec R.xlen) (divOp remOp : RvOp)
    (quot remainder : Option (BitVec n)) (rules : BitVec n → BitVec n → Prop) : Prop :=
  ∃ q r, quot = some q ∧ remainder = some r ∧ rules q r ∧
    ∀ host, action host s dec divOp = some (.m, .setRd (put q)) ∧ action host s dec remOp = some (.m, .setRd (put r))

/-- The four divisions at full width and, on RV64, the four that read words and extend their results. -/
theorem divisions_follow_rules {R : Rv} (s : Hart R) (dec : Decode) :
    let x := s.ireg dec.rs1
    let y := s.ireg dec.rs2
    Divides s dec id .div .rem (evalDiv x y) (evalRem x y) (SignedDivision x y) ∧
      Divides s dec id .divu .remu (evalDivu x y) (evalRemu x y) (UnsignedDivision x y) ∧
      (R = .rv64 →
        Divides s dec sext .divw .remw (evalDiv (word x) (word y)) (evalRem (word x) (word y)) (SignedDivision (word x) (word y)) ∧
        Divides s dec sext .divuw .remuw (evalDivu (word x) (word y)) (evalRemu (word x) (word y))
          (UnsignedDivision (word x) (word y))) := by
  have hpos : 0 < R.xlen := by cases R <;> decide
  dsimp only
  refine ⟨⟨_, _, evalDiv_eq _ _, evalRem_eq _ _, signedDivision_div_rem hpos, fun _ => ⟨rfl, rfl⟩⟩,
    ⟨_, _, evalDivu_eq _ _, evalRemu_eq _ _, unsignedDivision_divu_remu, fun _ => ⟨rfl, rfl⟩⟩, ?_⟩
  rintro rfl
  exact ⟨⟨_, _, evalDiv_eq _ _, evalRem_eq _ _, signedDivision_div_rem (by decide), fun _ => ⟨rfl, rfl⟩⟩,
    ⟨_, _, evalDivu_eq _ _, evalRemu_eq _ _, unsignedDivision_divu_remu, fun _ => ⟨rfl, rfl⟩⟩⟩

end Rv8.Emu
